/-
The deletion of a queue.

`delete_queue` takes the queue out of the registry, answers whoever stands in
its deques and releases what it holds.  Nobody's status changes, so that a
connection that waited goes on waiting.
-/

import Ijson.References
import Ijson.WaitingTask

namespace Ijson

open Program

/-! ### The name -/

/-- A node has lost the value `n`, where it has changed. -/
structure Step.Fades (n : Nat) (step faded : Step) : Prop where
  k : faded.k = step.k
  endValue : faded.endValue = step.endValue ∨ step.endValue = n ∧ faded.endValue = 0
  std : faded.std = step.std ∨ step.std = n ∧ faded.std = 0

/-- So have all nodes. -/
def Fades (n : Nat) (before after : List Step) : Prop :=
  ∀ m, (getStep before m = none ∧ getStep after m = none) ∨
    ∃ step faded, getStep before m = some step ∧ getStep after m = some faded ∧ step.Fades n faded

theorem fades_refl (n : Nat) (buf : List Step) : Fades n buf buf := by
  intro m
  cases read : getStep buf m with
  | none => exact .inl ⟨rfl, rfl⟩
  | some step => exact .inr ⟨step, step, rfl, rfl, rfl, .inl rfl, .inl rfl⟩

theorem fades_set {n m : Nat} {buf : List Step} {step faded : Step} (read : getStep buf m = some step)
    (fades : step.Fades n faded) : Fades n buf (buf.set (m - 1) faded) := by
  intro k
  obtain ⟨positive, fits⟩ := getStep_range read
  by_cases same : k = m
  · rw [same]
    exact .inr ⟨step, faded, read, getStep_set_self positive fits faded, fades⟩
  · rw [getStep_set_ne positive same]
    exact fades_refl n buf k

namespace Mapper

theorem delLoop_fades {buf after : List Step} {name : Bytes} {m n : Nat}
    (deleted : delLoop buf name m = some (after, n)) : Fades n buf after := by
  induction name generalizing m with
  | nil =>
      rw [delLoop] at deleted
      cases read : getStep buf m with
      | none =>
          rw [read] at deleted
          cases deleted
      | some step =>
          rw [read] at deleted
          cases deleted
          exact fades_set read ⟨rfl, .inr ⟨rfl, rfl⟩, .inl rfl⟩
  | cons a rest ih =>
      rw [delLoop] at deleted
      cases read : getStep buf m with
      | none =>
          rw [read] at deleted
          cases deleted
      | some step =>
          rw [read] at deleted
          simp only at deleted
          split at deleted
          · cases deleted
            exact fades_set read ⟨rfl, .inl rfl, .inr ⟨rfl, rfl⟩⟩
          · split at deleted
            · cases deleted
              exact fades_refl _ _
            · split at deleted
              · cases deleted
                exact fades_refl _ _
              · exact ih deleted

/-- A lookup that finds another value finds it still. -/
theorem findLoop_faded {n : Nat} {before after : List Step} (fades : Fades n before after) (name : Bytes)
    (m std left : Nat) (pattern : left = std ∨ std = n) :
    (findLoop before name m std = none ∧ findLoop after name m left = none) ∨
      ∃ found other, findLoop before name m std = some found ∧ findLoop after name m left = some other ∧
        (other = found ∨ found = n) := by
  induction name generalizing m std left with
  | nil =>
      rw [findLoop, findLoop]
      rcases fades m with ⟨nothing, gone⟩ | ⟨step, faded, read, still, lost⟩
      · rw [nothing, gone]
        exact .inl ⟨rfl, rfl⟩
      · rw [read, still]
        refine .inr ⟨_, _, rfl, rfl, ?_⟩
        rcases lost.endValue with ends | ⟨ends, zero⟩ <;> rcases lost.std with stands | ⟨stands, gone⟩ <;> grind
  | cons a rest ih =>
      rw [findLoop, findLoop]
      rcases fades m with ⟨nothing, gone⟩ | ⟨step, faded, read, still, lost⟩
      · rw [nothing, gone]
        exact .inl ⟨rfl, rfl⟩
      · rw [read, still]
        have patterns : (if faded.std ≠ 0 then faded.std else left) = (if step.std ≠ 0 then step.std else std) ∨
            (if step.std ≠ 0 then step.std else std) = n := by
          rcases lost.std with stands | ⟨stands, gone⟩ <;> grind
        simp only
        cases childIndex a with
        | none => exact .inr ⟨_, _, rfl, rfl, patterns⟩
        | some index =>
            simp only
            rw [lost.k]
            split
            · exact .inr ⟨_, _, rfl, rfl, patterns⟩
            · exact ih _ _ _ patterns

/-- Deleting a name leaves alone all lookups that lead elsewhere. -/
theorem find_deleted {mapper after : Mapper} {name other : Bytes} {n : Nat}
    (deleted : mapper.del name = some (after, n)) (elsewhere : mapper.find other ≠ some n) :
    after.find other = mapper.find other := by
  unfold del at deleted
  split at deleted
  · cases deleted
  · rename_i buf result looped
    cases deleted
    rcases findLoop_faded (delLoop_fades looped) other 1 0 0 (.inl rfl) with
      ⟨none, gone⟩ | ⟨found, now, before, after, same⟩
    · exact gone.trans none.symm
    · rcases same with equal | found
      · exact after.trans (equal ▸ before.symm)
      · exact absurd (before.trans (congrArg some found)) elsewhere

end Mapper

/-! ### The answers -/

/-- What a connection of the deleted queue is answered. -/
def closedAnswer : Response := ⟨"400 Closed", [], .code (-1)⟩

def Server.closedText (s : Server) (d : ConnId) : Bytes :=
  closedAnswer.head (s.conns d).keepAlive ++ Response.tail s.jsonrpc2 closedAnswer.payload

/-- `told` counts the answers of each connection and `held` the references to it
that were released; `left` have lost their `worker_item`. -/
structure Closing (s : Server) (told held : ConnId → Nat) (left : List ConnId) (t : Server) : Prop where
  conn : ∀ d, t.conns d = { s.conns d with
    sendBuffer := (s.conns d).sendBuffer ++ (List.replicate (told d) (s.closedText d)).flatten
    writing := (s.conns d).writing || decide (0 < told d)
    link := (s.conns d).link - held d
    workerItem := if d ∈ left then none else (s.conns d).workerItem }
  once : ∀ d, t.log.countP (Event.tells d) = s.log.countP (Event.tells d) + told d
  registry : t.registry = s.registry
  waitResponse : t.waitResponse = s.waitResponse
  jsonrpc2 : t.jsonrpc2 = s.jsonrpc2

namespace Closing

variable {s t u : Server} {told held : ConnId → Nat} {left : List ConnId}

theorem refl (s : Server) : Closing s (fun _ => 0) (fun _ => 0) [] s := by
  refine ⟨fun d => ?_, fun _ => rfl, rfl, rfl, rfl⟩
  simp

theorem congr (closing : Closing s told held left t) {told' held' : ConnId → Nat}
    (answers : ∀ d, told' d = told d) (released : ∀ d, held' d = held d) : Closing s told' held' left t := by
  rw [show told' = told from funext answers, show held' = held from funext released]
  exact closing

theorem beside (closing : Closing s told held left t) (conns : u.conns = t.conns) (log : u.log = t.log)
    (registry : u.registry = t.registry) (waitResponse : u.waitResponse = t.waitResponse)
    (jsonrpc2 : u.jsonrpc2 = t.jsonrpc2) : Closing s told held left u :=
  { conn := fun d => by rw [conns, closing.conn d]
    once := fun d => by rw [log, closing.once d]
    registry := registry.trans closing.registry
    waitResponse := waitResponse.trans closing.waitResponse
    jsonrpc2 := jsonrpc2.trans closing.jsonrpc2 }

/-- What `delete_queue` has still to do and has taken. -/
theorem around (closing : Closing s told held left t) (gc : List Message) (dying : Option QueueLine) :
    Closing s told held left { t with gc := gc, dying := dying } :=
  closing.beside rfl rfl rfl rfl rfl

theorem closed (closing : Closing s told held left t) (d : ConnId) :
    (t.conns d).closed = (s.conns d).closed := by rw [closing.conn d]

theorem sent (closing : Closing s told held left t) (d : ConnId) :
    Closing s (fun x => told x + if d = x then 1 else 0) held left (t.sent d closedAnswer) := by
  refine ⟨fun x => ?_, fun x => ?_, closing.registry, closing.waitResponse, closing.jsonrpc2⟩
  · rw [Server.sent, Server.note_conns, Server.modify_conns]
    by_cases same : x = d
    · subst same
      have text : closedAnswer.head (t.conns x).keepAlive ++
          Response.tail t.jsonrpc2 closedAnswer.payload = s.closedText x := by
        rw [Server.closedText, closing.jsonrpc2, closing.conn x]
      have more : 0 < told x + 1 := Nat.succ_pos _
      rw [if_pos rfl, List.append_assoc, text, closing.conn x]
      simp only [if_true, List.replicate_succ', List.flatten_append, List.flatten_singleton, more,
        decide_true, Bool.or_true, List.append_assoc]
    · rw [if_neg same, closing.conn x]
      simp only [Ne.symm same, if_false, Nat.add_zero]
  · change (t.log ++ [Event.response d (t.conns d).keepAlive closedAnswer]).countP (Event.tells x) = _
    rw [List.countP_append, closing.once x, List.countP_singleton]
    by_cases same : d = x
    · simp [Event.tells, same, Nat.add_assoc]
    · simp [Event.tells, same]

theorem unlinked (closing : Closing s told held left t) (w : ConnId) :
    Closing s told (fun x => held x + if w = x then 1 else 0) left (t.unlinked w) := by
  refine ⟨fun x => ?_, closing.once, closing.registry, closing.waitResponse, closing.jsonrpc2⟩
  rw [Server.unlinked_conns, closing.conn x]
  by_cases same : x = w
  · have number : (s.conns x).link - (held x : Nat) - 1 = (s.conns x).link - (held x + 1 : Nat) := by omega
    simp only [same, if_true] at number ⊢
    rw [number]
  · simp only [same, Ne.symm same, if_false, Nat.add_zero]

theorem unlisted (closing : Closing s told held left t) (c : ConnId) :
    Closing s told held (c :: left) (t.modify c fun conn => { conn with workerItem := none }) := by
  refine ⟨fun x => ?_, closing.once, closing.registry, closing.waitResponse, closing.jsonrpc2⟩
  rw [Server.modify_conns]
  by_cases same : x = c
  · subst same
    rw [if_pos rfl, closing.conn x]
    simp only [List.mem_cons, true_or, if_true]
  · rw [if_neg same, closing.conn x]
    simp only [List.mem_cons, same, false_or]

theorem unlinkAll (closing : Closing s told held left t) (refs : List ConnId) :
    Closing s told (fun x => held x + refs.count x) left (t.unlinkAll refs) := by
  induction refs generalizing t held with
  | nil => exact closing
  | cons w refs ih =>
      refine (ih (closing.unlinked w)).congr (fun _ => rfl) fun x => ?_
      simp only [List.count_cons, beq_iff_eq]
      omega

/-- A state that differs by answers and released references. -/
theorem kept (closing : Closing s told held left t) (conns : List ConnId) : t.Kept conns ↔ s.Kept conns := by
  have freed : ∀ x, (t.conns x).freed = (s.conns x).freed := fun x => by rw [closing.conn x]
  simp only [Server.Kept, freed]

theorem unlinkable {gone : List ConnId} (closing : Closing s told (fun d => gone.count d) left t)
    (refs : List ConnId) : t.Unlinkable refs ↔ (s.unlinkAll gone).Unlinkable refs :=
  Server.unlinkable_congr fun x => by rw [closing.conn x, Server.unlinkAll_conns]

end Closing

/-- The tasks of a list whose client is `d`. -/
def ofClient (d : ConnId) (messages : List Message) : Nat :=
  messages.countP fun message => message.conn = some d

theorem ofClient_append (d : ConnId) (first second : List Message) :
    ofClient d (first ++ second) = ofClient d first + ofClient d second :=
  List.countP_append

theorem ofClient_eq_count (d : ConnId) (messages : List Message) :
    ofClient d messages = (messages.filterMap Message.conn).count d := by
  induction messages with
  | nil => rfl
  | cons message messages ih =>
      rw [ofClient, List.countP_cons, ← ofClient, ih]
      cases conn : message.conn with
      | none => simp [conn]
      | some x => simp [conn, List.count_cons]

/-- The answers that the tasks and workers of a deque get. -/
def Server.closings (s : Server) (messages : List Message) (workers : List ConnId) (d : ConnId) : Nat :=
  if (s.conns d).closed then 0 else ofClient d messages + workers.count d

/-- The queue that is being deleted, with other deques of a loop. -/
def QueueLine.setDeques (line : QueueLine) (j : Nat) (queue : Queue) : QueueLine :=
  { line with queue := line.queue.set j queue }

theorem setDeques_self {line : QueueLine} {j : Nat} {queue : Queue} (found : line.queue[j]? = some queue) :
    line.setDeques j queue = line := by
  obtain ⟨inside, same⟩ := List.getElem?_eq_some_iff.mp found
  unfold QueueLine.setDeques
  rw [← same, List.set_getElem_self]

theorem setDeques_get {line : QueueLine} {j : Nat} {queue : Queue} (found : line.queue[j]? = some queue)
    (other : Queue) : (line.setDeques j other).queue[j]? = some other :=
  List.getElem?_set_self (List.getElem?_eq_some_iff.mp found).1

theorem setDeques_set (line : QueueLine) (j : Nat) (first second : Queue) :
    (line.setDeques j first).setDeques j second = line.setDeques j second := by
  unfold QueueLine.setDeques
  rw [List.set_set]

namespace Server

variable {s u : Server} {told held : ConnId → Nat} {left : List ConnId} {line : QueueLine} {queue : Queue}
  {j : Nat}

theorem closeMessage_closes {message : Message} {rest : List Message} (closing : Closing s told held left u)
    (dying : u.dying = some line) (found : line.queue[j]? = some queue)
    (clients : queue.clients = message :: rest) :
    (u.closeMessage j).Ends (fun _ t => Closing s (fun d => told d + s.closings [message] [] d) held left t ∧
      t.gc = u.gc ++ [message] ∧ t.dying = some (line.setDeques j { queue with clients := rest }))
      fun _ _ => False := by
  have silent : (∀ d, message.conn = some d → (s.conns d).closed = true) →
      ∀ d, told d + s.closings [message] [] d = told d := by
    intro unanswered d
    unfold Server.closings
    by_cases own : message.conn = some d
    · rw [if_pos (unanswered d own), Nat.add_zero]
    · simp [ofClient, own]
  unfold closeMessage
  rw [dying]
  simp only [found, clients]
  cases conn : message.conn with
  | none =>
      refine ⟨(closing.around _ _).congr (silent fun d own => ?_) fun _ => rfl, rfl, rfl⟩
      rw [conn] at own
      cases own
  | some d =>
      simp only
      cases closed : (u.conns d).closed with
      | true =>
          simp only [if_true]
          refine ⟨(closing.around _ _).congr (silent fun x own => ?_) fun _ => rfl, rfl, rfl⟩
          rw [conn] at own
          cases own
          rw [← closing.closed, closed]
      | false =>
          simp only [Bool.false_eq_true, if_false]
          refine send_ends (fun _ => ⟨?_, rfl, rfl⟩) fun isClosed => ?_
          · refine ((closing.around _ _).sent d).congr (fun x => ?_) fun _ => rfl
            unfold Server.closings
            by_cases same : d = x
            · subst same
              rw [← closing.closed, closed]
              simp [ofClient, conn]
            · simp [ofClient, conn, same]
          · rw [show (u.conns d).closed = true from isClosed] at closed
            cases closed

theorem closeWorker_closes {w : ConnId} {rest : List ConnId} (closing : Closing s told held left u)
    (dying : u.dying = some line) (found : line.queue[j]? = some queue)
    (workers : queue.workers = w :: rest) :
    (u.closeWorker j).Ends (fun _ t => Closing s (fun d => told d + s.closings [] [w] d)
      (fun d => held d + if w = d then 1 else 0) left t ∧ t.gc = u.gc ∧
      t.dying = some (line.setDeques j { queue with workers := rest })) fun _ _ => True := by
  unfold closeWorker
  rw [dying]
  simp only [found, workers, Ends_andThen]
  refine unlink_ends (fun _ => ?_) fun _ => trivial
  have unlinked := (closing.around u.gc
    (some { line with queue := line.queue.set j { queue with workers := rest } })).unlinked w
  have same : ∀ d, (s.conns d).closed = ((Server.unlinked { u with
      dying := some { line with queue := line.queue.set j { queue with workers := rest } } } w).conns d).closed :=
    fun d => (unlinked.closed d).symm
  split
  · rename_i closed
    refine ⟨unlinked.congr (fun d => ?_) fun _ => rfl, rfl, rfl⟩
    unfold Server.closings
    by_cases own : w = d
    · subst own
      rw [same, if_pos closed, Nat.add_zero]
    · simp [ofClient, own]
  · rename_i opened
    refine send_ends (fun _ => ⟨(unlinked.sent w).congr (fun d => ?_) fun _ => rfl, rfl, rfl⟩) fun _ => trivial
    unfold Server.closings
    by_cases own : w = d
    · subst own
      rw [same, if_neg opened]
      simp [ofClient]
    · simp [ofClient, own]

theorem popItem_closes {c : ConnId} {rest : List ConnId} (closing : Closing s told held left u)
    (dying : u.dying = some line) (workers : line.workers = c :: rest) :
    u.popItem.Ends (fun _ t => Closing s told (fun d => held d + if c = d then 1 else 0) (c :: left) t ∧
      t.gc = u.gc ∧ t.dying = some { line with workers := rest }) fun _ _ => False := by
  unfold popItem
  rw [dying]
  simp only [workers, Ends_andThen]
  refine Ends_noexcept (unlink_ends (fun _ => ?_) fun _ => trivial)
  exact ⟨((closing.around u.gc (some { line with workers := rest })).unlinked c).unlisted c, rfl, rfl⟩

section Returns

variable {message : Message} {messages : List Message} {w : ConnId} {workers : List ConnId}
  (dying : u.dying = some line) (found : line.queue[j]? = some queue)

include dying found in
theorem closeMessage_returns (clients : queue.clients = message :: messages) :
    ∃ t, u.closeMessage j = .returned t () := by
  unfold closeMessage
  rw [dying]
  simp only [found, clients]
  cases message.conn with
  | none => exact ⟨_, rfl⟩
  | some d =>
      cases closed : (u.conns d).closed with
      | true =>
          simp only [closed, if_true]
          exact ⟨_, rfl⟩
      | false =>
          simp only [closed, Bool.false_eq_true, if_false]
          refine ⟨_, send_open ?_ _⟩
          exact closed

include dying found in
theorem closeWorker_returns (whole : queue.workers = w :: workers) :
    (∃ t, u.closeWorker j = .returned t ()) ↔ 0 < (u.conns w).link := by
  unfold closeWorker
  rw [dying]
  simp only [found, whole]
  rw [unlink_eq]
  by_cases positive : 0 < (u.conns w).link
  · rw [if_pos positive]
    refine iff_of_true ?_ positive
    generalize unlinkedEq : Server.unlinked { u with
      dying := some { line with queue := line.queue.set j { queue with workers := workers } } } w = v
    change ∃ t, (if (v.conns w).closed then Outcome.returned v () else v.send w _) = .returned t ()
    cases closed : (v.conns w).closed with
    | true => exact ⟨v, rfl⟩
    | false => exact ⟨_, send_open closed _⟩
  · rw [if_neg positive]
    refine iff_of_false ?_ positive
    rintro ⟨t, same⟩
    cases same

include dying in
theorem popItem_returns (whole : line.workers = w :: workers) :
    (∃ t, u.popItem = .returned t ()) ↔ 0 < (u.conns w).link := by
  unfold popItem
  rw [dying]
  simp only [whole]
  rw [unlink_eq]
  by_cases positive : 0 < (u.conns w).link
  · rw [if_pos positive]
    exact iff_of_true ⟨_, rfl⟩ positive
  · rw [if_neg positive]
    refine iff_of_false ?_ positive
    rintro ⟨t, same⟩
    cases same

end Returns

/-- Each task and each worker is answered for itself. -/
theorem closings_append (s : Server) (first second : List Message) (these those : List ConnId) (d : ConnId) :
    s.closings (first ++ second) (these ++ those) d = s.closings first these d + s.closings second those d := by
  unfold closings
  split
  · rfl
  · rw [ofClient, List.countP_append, List.count_append]
    change _ = List.countP _ _ + _ + (List.countP _ _ + _)
    omega

theorem closings_nil (s : Server) (d : ConnId) : s.closings [] [] d = 0 := by
  unfold closings
  split <;> rfl

end Server

/-! ### The loops of `delete_queue` -/

namespace Routine

variable {s u : Server} {told held : ConnId → Nat} {left : List ConnId} {line : QueueLine} {queue : Queue}
  {j : Nat}

theorem closeMessages_close (clients : List Message) {u : Server} {told : ConnId → Nat} {line : QueueLine}
    {queue : Queue} (closing : Closing s told held left u) (dying : u.dying = some line)
    (found : line.queue[j]? = some queue) (whole : queue.clients = clients) :
    (closeMessages j clients.length).wp Action.apply unchecked
      (fun _ t => Closing s (fun d => told d + s.closings clients [] d) held left t ∧ t.gc = u.gc ++ clients ∧
        t.dying = some (line.setDeques j { queue with clients := [] })) (fun _ _ => False) u := by
  induction clients generalizing u told line queue with
  | nil =>
      refine ⟨closing.congr (fun d => by rw [s.closings_nil, Nat.add_zero]) fun _ => rfl,
        (List.append_nil _).symm, ?_⟩
      rw [dying, ← whole, setDeques_self found]
  | cons message rest ih =>
      rw [List.length_cons, closeMessages, wp_bind, wp_get]
      simp -zeta only [dying, Option.bind_some, found, whole, List.head?_cons]
      extract_lets next
      have later : ∀ x, (next x).wp Action.apply unchecked
          (fun _ t => Closing s (fun d => told d + s.closings (message :: rest) [] d) held left t ∧
            t.gc = u.gc ++ (message :: rest) ∧
            t.dying = some (line.setDeques j { queue with clients := [] })) (fun _ _ => False) u := by
        intro x
        unfold next
        rw [wp_bind, wp_perform]
        refine ⟨trivial, Ends.mono (Server.closeMessage_closes closing dying found whole)
          (fun _ v ends => ?_) fun _ _ never => never⟩
        obtain ⟨closed, gc, gone⟩ := ends
        refine wp_mono (ih closed gone (setDeques_get found _) rfl) (fun _ t after => ?_)
          fun _ _ never => never
        obtain ⟨last, collected, emptied⟩ := after
        refine ⟨last.congr (fun d => ?_) fun _ => rfl, ?_, ?_⟩
        · have split := s.closings_append [message] rest [] [] d
          rw [List.singleton_append, List.nil_append] at split
          rw [split, Nat.add_assoc]
        · rw [collected, gc, List.append_assoc, List.singleton_append]
        · rw [emptied, setDeques_set]
      cases message.conn with
      | none => exact later ()
      | some d =>
          simp -zeta only
          rw [wp_bind]
          exact use_wp d (later ())

theorem closeWorkers_close (workers : List ConnId) {u : Server} {told held : ConnId → Nat} {line : QueueLine}
    {queue : Queue} (closing : Closing s told held left u) (dying : u.dying = some line)
    (found : line.queue[j]? = some queue) (whole : queue.workers = workers) :
    (closeWorkers j workers.length).wp Action.apply unchecked
      (fun _ t => Closing s (fun d => told d + s.closings [] workers d) (fun d => held d + workers.count d) left t ∧
        t.gc = u.gc ∧ t.dying = some (line.setDeques j { queue with workers := [] })) (fun _ _ => True) u := by
  induction workers generalizing u told held line queue with
  | nil =>
      refine ⟨closing.congr (fun d => by rw [s.closings_nil, Nat.add_zero]) fun _ => rfl, rfl, ?_⟩
      rw [dying, ← whole, setDeques_self found]
  | cons w rest ih =>
      rw [List.length_cons, closeWorkers, wp_bind, wp_get]
      simp only [dying, Option.bind_some, found, whole, List.head?_cons]
      rw [wp_bind]
      refine use_wp w ?_
      rw [wp_bind, wp_perform]
      refine ⟨trivial, Ends.mono (Server.closeWorker_closes closing dying found whole)
        (fun _ v ends => ?_) fun _ _ _ => trivial⟩
      obtain ⟨closed, gc, gone⟩ := ends
      refine wp_mono (ih closed gone (setDeques_get found _) rfl) (fun _ t after => ?_) fun _ _ _ => trivial
      obtain ⟨last, collected, emptied⟩ := after
      refine ⟨last.congr (fun d => ?_) (fun d => ?_), collected.trans gc, ?_⟩
      · have split := s.closings_append [] [] [w] rest d
        rw [List.singleton_append, List.nil_append] at split
        rw [split, Nat.add_assoc]
      · simp only [List.count_cons, beq_iff_eq]
        omega
      · rw [emptied, setDeques_set]

theorem popItems_close (items : List ConnId) {u : Server} {held : ConnId → Nat} {left : List ConnId}
    {line : QueueLine} (closing : Closing s told held left u) (dying : u.dying = some line)
    (whole : line.workers = items) : (popItems items.length).wp Action.apply unchecked
      (fun _ t => ∃ gone, (∀ d, d ∈ gone ↔ d ∈ items ∨ d ∈ left) ∧
        Closing s told (fun d => held d + items.count d) gone t ∧ t.gc = u.gc) (fun _ _ => False) u := by
  induction items generalizing u held left line with
  | nil => exact ⟨left, fun d => by simp, closing, rfl⟩
  | cons c rest ih =>
      rw [List.length_cons, popItems, wp_bind, wp_perform]
      refine ⟨trivial, Ends.mono (Server.popItem_closes closing dying whole) (fun _ v ends => ?_)
        fun _ _ never => never⟩
      obtain ⟨closed, gc, shorter⟩ := ends
      refine wp_mono (ih closed shorter rfl) (fun _ t after => ?_) fun _ _ never => never
      obtain ⟨gone, members, last, collected⟩ := after
      refine ⟨gone, fun d => ?_, last.congr (fun _ => rfl) (fun d => ?_), collected.trans gc⟩
      · rw [members, List.mem_cons, List.mem_cons]
        tauto
      · simp only [List.count_cons, beq_iff_eq]
        omega

end Routine

/-! ### What the queue holds -/

namespace QueueLine

/-- The tasks in the deques of the loops. -/
def messages (line : QueueLine) (loops : List Nat) : List Message :=
  loops.flatMap fun j => ((line.queue[j]?).map Queue.clients).getD []

/-- The entries of workers in them. -/
def entries (line : QueueLine) (loops : List Nat) : List ConnId :=
  loops.flatMap fun j => ((line.queue[j]?).map Queue.workers).getD []

/-- The connections of both. -/
def conns (line : QueueLine) (loops : List Nat) : List ConnId :=
  line.entries loops ++ (line.messages loops).filterMap Message.conn

/-- The references to a connection: by tasks, entries and the list of subscribers. -/
def references (line : QueueLine) (loops : List Nat) (d : ConnId) : Nat :=
  ofClient d (line.messages loops) + (line.entries loops).count d + line.workers.count d

end QueueLine

namespace Routine

variable {s t u : Server} {told held : ConnId → Nat} {left : List ConnId}

theorem closeLoops_close (line : QueueLine) (loops : List Nat) (nodup : loops.Nodup) {u : Server}
    {told held : ConnId → Nat} {rest : QueueLine} (closing : Closing s told held left u)
    (dying : u.dying = some rest) (same : ∀ j ∈ loops, rest.queue[j]? = line.queue[j]?) :
    (closeLoops line loops).wp Action.apply unchecked
      (fun _ t => Closing s (fun d => told d + s.closings (line.messages loops) (line.entries loops) d)
        (fun d => held d + (line.entries loops).count d) left t ∧ t.gc = u.gc ++ line.messages loops ∧
        ∃ emptied, t.dying = some emptied ∧ emptied.workers = rest.workers) (fun _ _ => True) u := by
  induction loops generalizing u told held rest with
  | nil =>
      exact ⟨closing.congr (fun d => by rw [QueueLine.messages, QueueLine.entries, List.flatMap_nil,
        List.flatMap_nil, s.closings_nil, Nat.add_zero]) fun _ => rfl, (List.append_nil _).symm, rest, dying, rfl⟩
  | cons j loops ih =>
      obtain ⟨fresh, nodup⟩ := List.nodup_cons.mp nodup
      have here := same j List.mem_cons_self
      rw [closeLoops]
      cases found : line.queue[j]? with
      | none => trivial
      | some queue =>
          rw [found] at here
          have messages : line.messages (j :: loops) = queue.clients ++ line.messages loops := by
            rw [QueueLine.messages, List.flatMap_cons, found]
            rfl
          have entries : line.entries (j :: loops) = queue.workers ++ line.entries loops := by
            rw [QueueLine.entries, List.flatMap_cons, found]
            rfl
          simp only
          rw [wp_bind]
          refine wp_mono (closeMessages_close queue.clients closing dying here rfl) (fun _ v first => ?_)
            fun _ _ _ => trivial
          obtain ⟨told, collected, now⟩ := first
          rw [wp_bind]
          refine wp_mono (closeWorkers_close queue.workers told now (setDeques_get here _) rfl)
            (fun _ w second => ?_) fun _ _ _ => trivial
          obtain ⟨answered, kept, now⟩ := second
          rw [setDeques_set] at now
          have untouched : ∀ k ∈ loops, (rest.setDeques j { workers := [], clients := [] }).queue[k]? =
              line.queue[k]? := by
            intro k member
            have different : j ≠ k := fun equal => fresh (equal ▸ member)
            rw [← same k (List.mem_cons_of_mem j member), QueueLine.setDeques]
            exact List.getElem?_set_ne different
          refine wp_mono (ih nodup answered now untouched) (fun _ t after => ?_) fun _ _ _ => trivial
          obtain ⟨closed, gc, emptied, isDying, workers⟩ := after
          refine ⟨closed.congr (fun d => ?_) (fun d => ?_), ?_, emptied, isDying, workers⟩
          · have split := s.closings_append queue.clients [] [] queue.workers d
            rw [List.append_nil, List.nil_append] at split
            rw [messages, entries, s.closings_append, split]
            omega
          · rw [entries, List.count_append]
            omega
          · rw [gc, kept, collected, messages, List.append_assoc]

/-! ### The return -/

theorem closeMessages_returned (clients : List Message) {u : Server} {line : QueueLine} {queue : Queue}
    (dying : u.dying = some line) (found : line.queue[j]? = some queue) (whole : queue.clients = clients) :
    (∃ t, (closeMessages j clients.length).outcome Action.apply u = .returned t ()) ↔
      u.Kept (clients.filterMap Message.conn) := by
  induction clients generalizing u line queue with
  | nil => exact iff_of_true ⟨u, rfl⟩ (List.forall_mem_nil _)
  | cons message rest ih =>
      obtain ⟨v, closed⟩ := Server.closeMessage_returns dying found whole
      have ends := Server.closeMessage_closes (Closing.refl u) dying found whole
      rw [closed] at ends
      have onward : (∃ t, (perform (.closeMessage j) >>= fun _ => closeMessages j rest.length : Routine Unit).outcome
          Action.apply u = .returned t ()) ↔ u.Kept (rest.filterMap Message.conn) := by
        rw [perform_outcome (show (Action.closeMessage j).apply u = .returned v () from closed), ih ends.2.2 (setDeques_get found _) rfl]
        exact ends.1.kept _
      rw [List.length_cons, closeMessages, get_outcome, dying, Option.bind_some, found, Option.bind_some, whole,
        List.head?_cons]
      simp only
      cases conn : message.conn with
      | none =>
          rw [List.filterMap_cons_none conn]
          exact onward
      | some d =>
          rw [List.filterMap_cons_some conn, Server.Kept, List.forall_mem_cons, ← Server.Kept, ← onward]
          simp only [use_returned, exists_and_left]

theorem closeWorkers_returned (workers : List ConnId) {u : Server} {line : QueueLine} {queue : Queue}
    (dying : u.dying = some line) (found : line.queue[j]? = some queue) (whole : queue.workers = workers) :
    (∃ t, (closeWorkers j workers.length).outcome Action.apply u = .returned t ()) ↔
      u.Kept workers ∧ u.Unlinkable workers := by
  induction workers generalizing u line queue with
  | nil => exact iff_of_true ⟨u, rfl⟩ ⟨List.forall_mem_nil _, trivial⟩
  | cons w rest ih =>
      rw [List.length_cons, closeWorkers, get_outcome, dying, Option.bind_some, found, Option.bind_some, whole,
        List.head?_cons]
      simp only [use_returned, exists_and_left]
      rw [Server.Kept, List.forall_mem_cons, ← Server.Kept, and_assoc]
      refine and_congr_right fun _ => ?_
      by_cases positive : 0 < (u.conns w).link
      · obtain ⟨v, closed⟩ := (Server.closeWorker_returns dying found whole).mpr positive
        have ends := Server.closeWorker_closes (Closing.refl u) dying found whole
        rw [closed] at ends
        have released : Closing u _ (fun d => [w].count d) [] v := ends.1.congr (fun _ => rfl) fun d => by
          simp [List.count_cons, List.count_nil]
        rw [perform_outcome (show (Action.closeWorker j).apply u = .returned v () from closed),
          ih ends.2.2 (setDeques_get found _) rfl, released.kept, released.unlinkable]
        exact and_congr_right fun _ => (and_iff_right positive).symm
      · refine iff_of_false ?_ fun both => positive both.2.1
        rintro ⟨t, returned⟩
        obtain ⟨v, closed, -⟩ := act_returned.mp returned
        exact positive ((Server.closeWorker_returns dying found whole).mp ⟨v, closed⟩)

theorem popItems_returned (items : List ConnId) {u : Server} {line : QueueLine} (dying : u.dying = some line)
    (whole : line.workers = items) :
    (∃ t, (popItems items.length).outcome Action.apply u = .returned t ()) ↔ u.Unlinkable items := by
  induction items generalizing u line with
  | nil => exact iff_of_true ⟨u, rfl⟩ trivial
  | cons c rest ih =>
      rw [List.length_cons, popItems]
      by_cases positive : 0 < (u.conns c).link
      · obtain ⟨v, popped⟩ := (Server.popItem_returns dying whole).mpr positive
        have ends := Server.popItem_closes (Closing.refl u) dying whole
        rw [popped] at ends
        have released : Closing u _ (fun d => [c].count d) [c] v := ends.1.congr (fun _ => rfl) fun d => by
          simp [List.count_cons, List.count_nil]
        rw [perform_outcome (show Action.popItem.apply u = .returned v () from popped), ih ends.2.2 rfl,
          released.unlinkable]
        exact (and_iff_right positive).symm
      · refine iff_of_false ?_ fun linked => positive linked.1
        rintro ⟨t, returned⟩
        obtain ⟨v, popped, -⟩ := act_returned.mp returned
        exact positive ((Server.popItem_returns dying whole).mp ⟨v, popped⟩)

theorem closeLoops_returned (line : QueueLine) (loops : List Nat) (nodup : loops.Nodup) {u : Server}
    {rest : QueueLine} (dying : u.dying = some rest) (same : ∀ j ∈ loops, rest.queue[j]? = line.queue[j]?) :
    (∃ t, (closeLoops line loops).outcome Action.apply u = .returned t ()) ↔
      (∀ j ∈ loops, (line.queue[j]?).isSome = true) ∧ u.Kept (line.conns loops) ∧
        u.Unlinkable (line.entries loops) := by
  induction loops generalizing u rest with
  | nil => exact iff_of_true ⟨u, rfl⟩ ⟨List.forall_mem_nil _, List.forall_mem_nil _, trivial⟩
  | cons j loops ih =>
      obtain ⟨fresh, nodup⟩ := List.nodup_cons.mp nodup
      have here := same j List.mem_cons_self
      rw [closeLoops, List.forall_mem_cons]
      cases found : line.queue[j]? with
      | none =>
          refine iff_of_false ?_ fun both => by cases both.1.1
          rintro ⟨t, returned⟩
          cases returned
      | some queue =>
          rw [found] at here
          have messages : line.messages (j :: loops) = queue.clients ++ line.messages loops := by
            rw [QueueLine.messages, List.flatMap_cons, found]
            rfl
          have entries : line.entries (j :: loops) = queue.workers ++ line.entries loops := by
            rw [QueueLine.entries, List.flatMap_cons, found]
            rfl
          have reads : u.Kept (line.conns (j :: loops)) ↔ u.Kept (queue.clients.filterMap Message.conn) ∧
              u.Kept queue.workers ∧ u.Kept (line.conns loops) := by
            simp only [QueueLine.conns, messages, entries, List.filterMap_append, Server.Kept,
              List.forall_mem_append]
            tauto
          simp only [Option.isSome_some, true_and]
          rw [entries, Server.unlinkable_append, reads]
          by_cases clients : u.Kept (queue.clients.filterMap Message.conn)
          · obtain ⟨v, first⟩ := (closeMessages_returned queue.clients dying here rfl).mpr clients
            have one := outcome_ends (closeMessages_close queue.clients (Closing.refl u) dying here rfl)
            rw [first] at one
            obtain ⟨told, -, now⟩ := one
            have workers := closeWorkers_returned queue.workers now (setDeques_get here _) rfl
            rw [told.kept, Server.unlinkable_congr (s := u) (t := v) fun x => by rw [told.conn x]; simp] at workers
            rw [outcome_bind, first, Outcome.bind]
            by_cases both : u.Kept queue.workers ∧ u.Unlinkable queue.workers
            · obtain ⟨w, second⟩ := workers.mpr both
              have two := outcome_ends (closeWorkers_close queue.workers told now (setDeques_get here _) rfl)
              rw [second] at two
              obtain ⟨answered, -, now⟩ := two
              rw [setDeques_set] at now
              have untouched : ∀ k ∈ loops, (rest.setDeques j { workers := [], clients := [] }).queue[k]? =
                  line.queue[k]? := by
                intro k member
                have different : j ≠ k := fun equal => fresh (equal ▸ member)
                rw [← same k (List.mem_cons_of_mem j member), QueueLine.setDeques]
                exact List.getElem?_set_ne different
              have released : Closing u _ (fun d => queue.workers.count d) [] w :=
                answered.congr (fun _ => rfl) fun d => (Nat.zero_add _).symm
              rw [outcome_bind, second, Outcome.bind, ih nodup now untouched, released.kept, released.unlinkable]
              simp only [clients, both.1, both.2, true_and]
            · refine iff_of_false ?_ fun whole => both ⟨whole.2.1.2.1, whole.2.2.1⟩
              rintro ⟨t, returned⟩
              obtain ⟨w, _, second, -⟩ := bind_returned.mp returned
              exact both (workers.mp ⟨w, second⟩)
          · refine iff_of_false ?_ fun whole => clients whole.2.1.1
            rintro ⟨t, returned⟩
            obtain ⟨v, _, first, -⟩ := bind_returned.mp returned
            exact clients ((closeMessages_returned queue.clients dying here rfl).mp ⟨v, first⟩)

theorem rethrow_returned {program : Routine Unit} : (program.catching fun error => do
    release
    throw error).outcome Action.apply s = .returned t () ↔ program.outcome Action.apply s = .returned t () := by
  rw [outcome_catching]
  cases program.outcome Action.apply s with
  | returned after value => rfl
  | fault => rfl
  | thrown after error =>
      refine iff_of_false (fun returned => ?_) fun same => by cases same
      obtain ⟨_, _, -, thrown⟩ := bind_returned.mp returned
      cases thrown

/-- The start of the deletion, with the queue taken out of the registry. -/
def unhooked (s : Server) (mapper : Mapper) (i : Nat) (line : QueueLine) : Server :=
  Server.note { s with
    registry := { mapper := mapper, queueList := s.registry.queueList.set i none }
    dying := some line } (.deleted i)

theorem unhooked_closing (s : Server) (mapper : Mapper) (i : Nat) (line : QueueLine) : Closing { s with
    registry := { mapper := mapper, queueList := s.registry.queueList.set i none } } (fun _ => 0) (fun _ => 0) []
    (unhooked s mapper i line) := by
  refine ⟨fun d => ?_, fun d => ?_, rfl, rfl, rfl⟩
  · simp [unhooked]
  · change (s.log ++ [Event.deleted i]).countP (Event.tells d) = _
    rw [List.countP_append, List.countP_singleton]
    simp [Event.tells]

section Whole

variable {key : Bytes} {mapper : Mapper} {i : Nat} {line : QueueLine}
  (deleted : s.registry.mapper.del key = some (mapper, i + 1)) (live : s.line i = some line)

include deleted live

theorem deleteQueue_returned : (deleteQueue key).outcome Action.apply s = .returned t () ↔
    line.locked = false ∧ ∃ u v,
      (closeLoops line (List.range s.threads)).outcome Action.apply (unhooked s mapper i line) = .returned u () ∧
      (popItems line.workers.length).outcome Action.apply u = .returned v () ∧
      release.outcome Action.apply { v with dying := none } = .returned t () := by
  have slot : s.registry.queueList[i]? = some (some line) := Option.join_eq_some_iff.mp live
  have removed : s.registry.removeQueue key =
      some ({ mapper := mapper, queueList := s.registry.queueList.set i none }, some line) := by
    rw [Registry.removeQueue, deleted]
    simp only [Nat.add_eq_zero_iff, one_ne_zero, and_false, if_false, Nat.add_sub_cancel, slot]
  have applied : (Action.unhook key).apply s =
      if line.locked then .fault else .returned (unhooked s mapper i line) () := by
    simp only [Action.apply, Server.unhook, deleted, removed]
    rfl
  rw [deleteQueue]
  cases locked : line.locked with
  | true =>
      refine iff_of_false (fun returned => ?_) fun both => by cases both.1
      obtain ⟨_, unhooks, -⟩ := act_returned.mp returned
      rw [applied, locked] at unhooks
      cases unhooks
  | false =>
      rw [locked] at applied
      have dying : (unhooked s mapper i line).dying = some line := rfl
      have threads : (unhooked s mapper i line).threads = s.threads := rfl
      rw [perform_outcome applied, get_outcome, dying]
      simp only
      rw [bind_returned, threads]
      constructor
      · rintro ⟨u, _, closed, rest⟩
        rw [rethrow_returned] at closed
        obtain ⟨v, _, popped, rest⟩ := bind_returned.mp rest
        obtain ⟨w, buried, released⟩ := act_returned.mp rest
        cases buried
        exact ⟨trivial, u, v, closed, popped, released⟩
      · rintro ⟨-, u, v, closed, popped, released⟩
        refine ⟨u, (), rethrow_returned.mpr closed, bind_returned.mpr ⟨v, (), popped, ?_⟩⟩
        exact act_returned.mpr ⟨_, rfl, released⟩

/-- The whole of `delete_queue` behind the registry. -/
theorem deleteQueue_closes (returned : (deleteQueue key).outcome Action.apply s = .returned t ()) :
    ∃ gone, (∀ d, d ∈ gone ↔ d ∈ line.workers) ∧
      Closing { s with registry := { mapper := mapper, queueList := s.registry.queueList.set i none } }
        (s.closings (line.messages (List.range s.threads)) (line.entries (List.range s.threads)))
        (fun d => line.references (List.range s.threads) d + ofClient d s.gc) gone t := by
  obtain ⟨-, u, v, closed, popped, released⟩ := (deleteQueue_returned deleted live).mp returned
  have one := outcome_ends (closeLoops_close line (List.range s.threads) List.nodup_range
    (unhooked_closing s mapper i line) rfl fun _ _ => rfl)
  rw [closed] at one
  obtain ⟨answered, collected, emptied, isDying, workers⟩ := one
  have two := outcome_ends (popItems_close line.workers answered isDying workers)
  rw [popped] at two
  obtain ⟨gone, members, closing, kept⟩ := two
  obtain ⟨-, rfl⟩ := release_returned.mp released
  refine ⟨gone, fun d => by rw [members]; simp, (((closing.around v.gc none).unlinkAll _).around [] _).congr
    (fun d => ?_) fun d => ?_⟩
  · rw [Nat.zero_add]
    rfl
  · change _ = 0 + _ + _ + List.count d (v.gc.filterMap Message.conn)
    rw [kept, collected, ← ofClient_eq_count, ofClient_append, QueueLine.references]
    change _ = _ + (ofClient d s.gc + _)
    omega

theorem deleteQueue_returned_iff : (∃ t, (deleteQueue key).outcome Action.apply s = .returned t ()) ↔
    line.locked = false ∧ (∀ j ∈ List.range s.threads, (line.queue[j]?).isSome = true) ∧
      s.Kept (line.conns (List.range s.threads)) ∧
      s.Unlinkable (line.entries (List.range s.threads) ++ line.workers ++
        (s.gc ++ line.messages (List.range s.threads)).filterMap Message.conn) := by
  simp only [deleteQueue_returned deleted live]
  have loops := @closeLoops_returned line (List.range s.threads) List.nodup_range (unhooked s mapper i line) line
    rfl fun _ _ => rfl
  have reads : (unhooked s mapper i line).Kept (line.conns (List.range s.threads)) ↔
      s.Kept (line.conns (List.range s.threads)) := Iff.rfl
  rw [reads, Server.unlinkable_congr (s := s) (t := unhooked s mapper i line) fun _ => rfl] at loops
  rw [Server.unlinkable_append, Server.unlinkable_append, Server.unlinkAll_append]
  -- what is still asked for where the loops return
  have rest : ∀ u, (closeLoops line (List.range s.threads)).outcome Action.apply (unhooked s mapper i line) =
      .returned u () → ((∃ t v, (popItems line.workers.length).outcome Action.apply u = .returned v () ∧
        release.outcome Action.apply { v with dying := none } = .returned t ()) ↔
      (s.unlinkAll (line.entries (List.range s.threads))).Unlinkable line.workers ∧
        ((s.unlinkAll (line.entries (List.range s.threads))).unlinkAll line.workers).Unlinkable
          ((s.gc ++ line.messages (List.range s.threads)).filterMap Message.conn)) := by
    intro u closed
    have one := outcome_ends (closeLoops_close line (List.range s.threads) List.nodup_range
      (unhooked_closing s mapper i line) rfl fun _ _ => rfl)
    rw [closed] at one
    obtain ⟨answered, collected, emptied, isDying, workers⟩ := one
    have answered := answered.congr (fun _ => rfl)
      (fun d => (Nat.zero_add ((line.entries (List.range s.threads)).count d)).symm)
    have items := popItems_returned line.workers isDying workers
    rw [Server.unlinkable_congr (s := s.unlinkAll (line.entries (List.range s.threads))) fun x => by
      rw [answered.conn x, Server.unlinkAll_conns]] at items
    have collection : ∀ v, (popItems line.workers.length).outcome Action.apply u = .returned v () →
        ((∃ t, release.outcome Action.apply { v with dying := none } = .returned t ()) ↔
          ((s.unlinkAll (line.entries (List.range s.threads))).unlinkAll line.workers).Unlinkable
            ((s.gc ++ line.messages (List.range s.threads)).filterMap Message.conn)) := by
      intro v popped
      have two := outcome_ends (popItems_close line.workers answered isDying workers)
      rw [popped] at two
      obtain ⟨gone, -, closing, kept⟩ := two
      have same : v.gc = s.gc ++ line.messages (List.range s.threads) := kept.trans collected
      simp only [release_returned, exists_and_left, exists_eq, and_true]
      rw [same]
      refine Server.unlinkable_congr fun x => ?_
      rw [closing.conn x, Server.unlinkAll_conns, Server.unlinkAll_conns]
      simp only
      omega
    constructor
    · rintro ⟨t, v, popped, released⟩
      exact ⟨items.mp ⟨v, popped⟩, (collection v popped).mp ⟨t, released⟩⟩
    · rintro ⟨linked, enough⟩
      obtain ⟨v, popped⟩ := items.mpr linked
      obtain ⟨t, released⟩ := (collection v popped).mpr enough
      exact ⟨t, v, popped, released⟩
  constructor
  · rintro ⟨t, free, u, v, closed, popped, released⟩
    have whole := loops.mp ⟨u, closed⟩
    have later := (rest u closed).mp ⟨t, v, popped, released⟩
    exact ⟨free, whole.1, whole.2.1, ⟨whole.2.2, later.1⟩, later.2⟩
  · rintro ⟨free, deques, kept, ⟨entries, items⟩, collected⟩
    obtain ⟨u, closed⟩ := loops.mpr ⟨deques, kept, entries⟩
    obtain ⟨t, v, popped, released⟩ := (rest u closed).mpr ⟨items, collected⟩
    exact ⟨t, free, u, v, closed, popped, released⟩

end Whole

end Routine

/-! ### Who is troubled -/

/-- The deques of all loops. -/
abbrev Server.loops (s : Server) : List Nat := List.range s.threads

/-- The connection is open and waits on the queue, for a task or for a worker. -/
def WaitsOn (s : Server) (line : QueueLine) (d : ConnId) : Prop :=
  (s.conns d).closed = false ∧ ((s.conns d).status = .workerWaitJob ∧ d ∈ line.entries s.loops ∨
    0 < ofClient d (line.messages s.loops))

/-- Those that wait on the queue are answered and ready again, nobody else hears
of it, and the queue leaves nothing behind. -/
structure DeletedProperly (s : Server) (i : Nat) (line : QueueLine) (t : Server) : Prop where
  answered : ∀ d, WaitsOn s line d →
    (t.conns d).sendBuffer = (s.conns d).sendBuffer ++ s.closedText d ∧ (t.conns d).writing = true ∧
      t.log.countP (Event.tells d) = s.log.countP (Event.tells d) + 1
  silent : ∀ d, ¬ WaitsOn s line d → (t.conns d).sendBuffer = (s.conns d).sendBuffer ∧
    (t.conns d).writing = (s.conns d).writing ∧ t.log.countP (Event.tells d) = s.log.countP (Event.tells d)
  direct : ∀ d, (t.conns d).directMessage = (s.conns d).directMessage
  ready : ∀ d, WaitsOn s line d → (t.conns d).ready = true
  released : ∀ d, (t.conns d).link = (s.conns d).link - (line.references s.loops d + ofClient d s.gc : Nat)
  items : ∀ d, (t.conns d).workerItem = if d ∈ line.workers then none else (s.conns d).workerItem
  lines : ∀ k, t.line k = if k = i then none else s.line k
  lookups : ∀ name, s.registry.mapper.find name ≠ some (i + 1) →
    t.registry.mapper.find name = s.registry.mapper.find name
  waitResponse : t.waitResponse = s.waitResponse

/-- Only closed workers stand in the deques, and each open client has one task
in them at most and is ready for its next request nevertheless. -/
structure Answerable (s : Server) (line : QueueLine) : Prop where
  workers : ∀ d ∈ line.entries s.loops, (s.conns d).closed = true
  once : ∀ d, (s.conns d).closed = false → ofClient d (line.messages s.loops) ≤ 1
  ready : ∀ d, (s.conns d).closed = false → 0 < ofClient d (line.messages s.loops) →
    (s.conns d).ready = true

/-- Besides, nobody holds the mutex of the queue, and no connection that it still
names is deleted or without a reference to give up. -/
structure Untroubled (s : Server) (line : QueueLine) : Prop extends Answerable s line where
  free : line.locked = false
  deques : ∀ j ∈ s.loops, (line.queue[j]?).isSome = true
  kept : s.Kept (line.conns s.loops)
  linked : s.Unlinkable (line.entries s.loops ++ line.workers ++
    (s.gc ++ line.messages s.loops).filterMap Message.conn)

theorem waitJob_unready {conn : Conn} (waits : conn.status = .workerWaitJob) : conn.ready = false := by
  simp [Conn.ready, waits]

theorem Answerable.told {s : Server} {line : QueueLine} (answerable : Answerable s line) (d : ConnId)
    [Decidable (WaitsOn s line d)] :
    s.closings (line.messages s.loops) (line.entries s.loops) d = if WaitsOn s line d then 1 else 0 := by
  unfold Server.closings
  cases closed : (s.conns d).closed with
  | true =>
      have silent : ¬ WaitsOn s line d := fun waits => by
        have opened := waits.1
        rw [closed] at opened
        cases opened
      rw [if_pos rfl, if_neg silent]
  | false =>
      have absent : d ∉ line.entries s.loops := fun member => by
        rw [answerable.workers d member] at closed
        cases closed
      have once := answerable.once d closed
      rw [if_neg Bool.false_ne_true, List.count_eq_zero.mpr absent, Nat.add_zero]
      split
      · rename_i waits
        rcases waits.2 with stale | waiting
        · exact absurd stale.2 absent
        · omega
      · rename_i silent
        by_contra other
        exact silent ⟨closed, .inr (by omega)⟩

/-- A deletion that returns is proper exactly then. -/
theorem deletedProperly_iff {s t : Server} {key : Bytes} {mapper : Mapper} {i : Nat} {line : QueueLine}
    (deleted : s.registry.mapper.del key = some (mapper, i + 1)) (live : s.line i = some line)
    (returned : (Routine.deleteQueue key).outcome Action.apply s = .returned t ()) :
    DeletedProperly s i line t ↔ Answerable s line := by
  obtain ⟨gone, members, closing⟩ := Routine.deleteQueue_closes deleted live returned
  have ready : ∀ d, (t.conns d).ready = (s.conns d).ready := fun d => by
    rw [closing.conn d]
    rfl
  have count : ∀ d, t.log.countP (Event.tells d) = s.log.countP (Event.tells d) +
      s.closings (line.messages s.loops) (line.entries s.loops) d := closing.once
  constructor
  · intro proper
    have single : ∀ d, (s.conns d).closed = false → WaitsOn s line d →
        ofClient d (line.messages s.loops) + (line.entries s.loops).count d = 1 := by
      intro d opened waits
      have once := (proper.answered d waits).2.2
      have told := count d
      rw [Server.closings, opened, if_neg Bool.false_ne_true] at told
      omega
    refine ⟨fun d member => ?_, fun d opened => ?_, fun d opened waiting => ?_⟩
    · by_contra notClosed
      have opened : (s.conns d).closed = false := by simpa using notClosed
      have entry : 0 < (line.entries s.loops).count d := List.count_pos_iff.mpr member
      by_cases waits : WaitsOn s line d
      · have isReady := proper.ready d waits
        rw [ready] at isReady
        have once := single d opened waits
        rcases waits.2 with job | waiting
        · rw [waitJob_unready job.1] at isReady
          cases isReady
        · omega
      · have told := count d
        rw [(proper.silent d waits).2.2, Server.closings, opened, if_neg Bool.false_ne_true] at told
        omega
    · by_contra many
      have once := single d opened ⟨opened, .inr (by omega)⟩
      omega
    · have isReady := proper.ready d ⟨opened, .inr waiting⟩
      rw [← ready]
      exact isReady
  · intro answerable
    classical
    refine
      { answered := fun d waits => ?_
        silent := fun d silent => ?_
        direct := fun d => ?_
        ready := fun d waits => ?_
        released := fun d => ?_
        items := fun d => ?_
        lines := fun k => ?_
        lookups := fun name elsewhere => ?_
        waitResponse := closing.waitResponse }
    · have told := answerable.told d
      rw [if_pos waits] at told
      refine ⟨?_, ?_, ?_⟩
      · rw [closing.conn d]
        simp only [told, List.replicate_one, List.flatten_singleton]
        rfl
      · rw [closing.conn d]
        simp only [told, Nat.lt_one_iff, decide_true, Bool.or_true]
      · rw [count, told]
    · have told := answerable.told d
      rw [if_neg silent] at told
      refine ⟨?_, ?_, ?_⟩
      · rw [closing.conn d]
        simp only [told, List.replicate_zero, List.flatten_nil, List.append_nil]
      · rw [closing.conn d]
        simp only [told, Nat.lt_irrefl, decide_false, Bool.or_false]
      · rw [count, told, Nat.add_zero]
    · rw [closing.conn d]
    · rw [ready]
      rcases waits.2 with job | waiting
      · have closed := answerable.workers d job.2
        rw [waits.1] at closed
        cases closed
      · exact answerable.ready d waits.1 waiting
    · rw [closing.conn d]
    · rw [closing.conn d]
      simp only [members]
    · rw [Server.line, closing.registry]
      by_cases same : k = i
      · rw [if_pos same, same]
        simp only [List.getElem?_set]
        split
        · split <;> rfl
        · contradiction
      · rw [if_neg same]
        simp only
        rw [List.getElem?_set_ne (Ne.symm same)]
        rfl
    · rw [closing.registry]
      exact Mapper.find_deleted deleted elsewhere

/-- A queue is deleted properly exactly when nobody is troubled by it. -/
theorem deleted_properly_iff (s : Server) (key : Bytes) (i : Nat) (line : QueueLine)
    (named : (s.registry.mapper.del key).map Prod.snd = some (i + 1)) (live : s.line i = some line) :
    (∃ t, ((Routine.deleteQueue key).run Action.apply s).2 = .returned t () ∧ DeletedProperly s i line t) ↔
      Untroubled s line := by
  obtain ⟨⟨mapper, n⟩, deleted, isSlot⟩ := Option.map_eq_some_iff.mp named
  simp only at isSlot
  subst isSlot
  have returns := Routine.deleteQueue_returned_iff deleted live
  constructor
  · rintro ⟨t, returned, proper⟩
    obtain ⟨free, deques, kept, linked⟩ := returns.mp ⟨t, returned⟩
    exact ⟨(deletedProperly_iff deleted live returned).mp proper, free, deques, kept, linked⟩
  · intro untroubled
    obtain ⟨t, returned⟩ := returns.mpr ⟨untroubled.free, untroubled.deques, untroubled.kept, untroubled.linked⟩
    exact ⟨t, returned, (deletedProperly_iff deleted live returned).mpr untroubled.toAnswerable⟩

/-- Connection 0 has left an asynchronous task for the worker `w` in the queue
`a`, and connection 1 has waited behind it and is gone. -/
def desertedQueue : List Input :=
  [.accept 0 ⟨false, false, false⟩,
    .accept 1 ⟨false, false, false⟩,
    .recv 0 (ascii "GET /a HTTP/1.1\r\nType: create\r\n\r\n") atRest,
    .recv 0 (ascii "POST /a HTTP/1.1\r\nType: async\r\nWorker-ID: w\r\n\r\n") atRest,
    .recv 1 (ascii "GET /a HTTP/1.1\r\nType: get\r\n\r\n") atRest,
    .hangup 1]

/-- Only the task and the stale entry are there, and the entry can be given up. -/
def isDeserted (s : Server) : Bool :=
  match s.line 0 with
  | some line => decide (line.entries s.loops = [1] ∧ (line.messages s.loops).map Message.conn = [none] ∧
      line.workers = [] ∧ s.gc = [] ∧ line.locked = false ∧ s.loops = [0, 1] ∧ line.queue.length = 2 ∧
      (s.conns 1).closed = true ∧ (s.conns 1).freed = false ∧ 0 < (s.conns 1).link ∧
      (s.registry.mapper.del (ascii "a")).map Prod.snd = some 1)
  | none => false

theorem deleted_properly_iff_deserted : ∃ s line t, afterAll desertedQueue (Server.new 2 false [] 0) = some s ∧
    s.line 0 = some line ∧ line.entries s.loops = [1] ∧ (line.messages s.loops).length = 1 ∧
      ((Routine.deleteQueue (ascii "a")).run Action.apply s).2 = .returned t () ∧ DeletedProperly s 0 line t := by
  have ran : (afterAll desertedQueue (Server.new 2 false [] 0)).map isDeserted = some true := by
    decide +kernel
  obtain ⟨s, afterEq, test⟩ := Option.map_eq_some_iff.mp ran
  unfold isDeserted at test
  split at test
  · rename_i line live
    obtain ⟨entries, clients, workers, gc, free, loops, deques, closed, kept, linked, named⟩ :=
      of_decide_eq_true test
    have nobody : (line.messages s.loops).filterMap Message.conn = [] := by
      obtain ⟨message, whole, async⟩ := List.map_eq_singleton_iff.mp clients
      rw [whole, List.filterMap_cons_none async, List.filterMap_nil]
    have silent : ∀ d, ofClient d (line.messages s.loops) = 0 := fun d => by
      rw [ofClient_eq_count, nobody]
      rfl
    have untroubled : Untroubled s line :=
      { workers := fun d member => by
          rw [entries, List.mem_singleton] at member
          rw [member, closed]
        once := fun d _ => by
          rw [silent]
          exact Nat.zero_le 1
        ready := fun d _ waiting => by
          rw [silent] at waiting
          exact absurd waiting (Nat.lt_irrefl 0)
        free := free
        deques := fun j member => by
          rw [loops] at member
          rw [List.getElem?_eq_getElem, Option.isSome_some]
          grind
        kept := fun x member => by
          rw [QueueLine.conns, entries, nobody, List.append_nil, List.mem_singleton] at member
          rw [member, kept]
        linked := by
          rw [entries, workers, gc, List.nil_append, nobody, List.append_nil, List.append_nil]
          exact ⟨linked, trivial⟩ }
    obtain ⟨t, returned, proper⟩ := (deleted_properly_iff s (ascii "a") 0 line named live).mpr untroubled
    refine ⟨s, line, t, afterEq, live, entries, ?_, returned, proper⟩
    rw [← List.length_map Message.conn, clients]
    rfl
  · cases test

/-- Worker 0 waits in the queue `a`, and connection 1 deletes it. -/
def deletesWaited : List Input := Routine.idleWorker ++ [.accept 0 ⟨false, false, false⟩]

def deletion : Input := .recv 1 (ascii "GET /a HTTP/1.1\r\nType: delete\r\n\r\n") atRest

def isUnhook : Action → Bool
  | .unhook _ => true
  | _ => false

/-- The worker is answered and cannot go on. -/
def leavesUnready (s : Server) : Bool :=
  match s.line 0, ((Routine.deleteQueue (ascii "a")).run Action.apply s).2 with
  | some line, .returned t _ => !(s.conns 0).closed && (s.conns 0).status = .workerWaitJob &&
      0 ∈ line.entries s.loops && !(t.conns 0).ready &&
      (s.registry.mapper.del (ascii "a")).map Prod.snd = some 1
  | _, _ => false

theorem waiting_worker_unready : ¬ ∀ s t key i line, Met anything s →
    (s.registry.mapper.del key).map Prod.snd = some (i + 1) → s.line i = some line →
    ((Routine.deleteQueue key).run Action.apply s).2 = .returned t () → DeletedProperly s i line t := by
  intro always
  have ran : (afterAll deletesWaited (Server.new 1 false [] 0)).map (fun s =>
      decide (deletion.Enabled s) && (deletion.run s).1.any fun moment =>
        isUnhook moment.1 && leavesUnready moment.2) = some true := by
    decide +kernel
  obtain ⟨s, afterEq, test⟩ := Option.map_eq_some_iff.mp ran
  rw [Bool.and_eq_true, decide_eq_true_eq] at test
  obtain ⟨moment, inside, found⟩ := List.any_eq_true.mp test.2
  obtain ⟨before, after, split⟩ := List.append_of_mem inside
  have met : Met anything moment.2 :=
    .during deletion before after moment (reachable_afterAll (.new 1 false [] 0) afterEq) test.1 split
      fun _ _ => trivial
  have unready := (Bool.and_eq_true_iff.mp found).2
  unfold leavesUnready at unready
  split at unready
  · rename_i line t _ live returned
    rw [Bool.and_eq_true, Bool.and_eq_true, Bool.and_eq_true, Bool.and_eq_true, decide_eq_true_eq,
      decide_eq_true_eq, decide_eq_true_eq] at unready
    obtain ⟨⟨⟨⟨opened, waits⟩, member⟩, notReady⟩, named⟩ := unready
    have proper := always moment.2 t (ascii "a") 0 line met named live returned
    have isReady := proper.ready 0 ⟨by simpa using opened, .inl ⟨waits, member⟩⟩
    rw [isReady] at notReady
    cases notReady
  · cases unready

end Ijson
