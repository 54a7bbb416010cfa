/-
What a pass of `Service::_clean_dead_tasks` does.

The pass takes the entries that do not wait out of the deques of every queue
whose mutex is free, and gives up one reference for each.  It returns when no
connection it looks at has been freed and each has as many references as are
given up; then all else is as it was, and a second pass finds nothing to do.
-/

import Mathlib.Algebra.Order.BigOperators.Group.List
import Ijson.Rollback
import Ijson.TaskGiving

namespace Ijson

open Program

namespace Server

variable {s t : Server}

/-! ### One deque -/

/-- The references of the entries that go, in the order in which they go. -/
def staleWorkers (s : Server) (workers : List ConnId) : List ConnId := workers.filter fun w => !s.idle w

def staleClients (s : Server) (clients : List Message) : List ConnId :=
  (clients.filter fun message => !s.alive message).filterMap Message.conn

/-- What stays. -/
def cleaned (s : Server) (queue : Queue) : Queue :=
  { workers := queue.workers.filter s.idle
    clients := queue.clients.filter s.alive }

section Same

variable (same : ∀ x, t.conns x = { s.conns x with link := (t.conns x).link })

include same

theorem alive_same (message : Message) : t.alive message = s.alive message := by
  unfold alive
  cases message.conn with
  | none => rfl
  | some d =>
      simp only
      rw [same d]

theorem staleWorkers_same (workers : List ConnId) : t.staleWorkers workers = s.staleWorkers workers := by
  simp only [staleWorkers, idle_same same]

theorem staleClients_same (clients : List Message) : t.staleClients clients = s.staleClients clients := by
  simp only [staleClients, alive_same same]

theorem cleaned_same (queue : Queue) : t.cleaned queue = s.cleaned queue := by
  have idles : t.idle = s.idle := funext (idle_same same)
  have alives : t.alive = s.alive := funext (alive_same same)
  rw [cleaned, cleaned, idles, alives]

end Same

theorem setQueue_unlinked (s : Server) (i j : Nat) (queue : Queue) (c : ConnId) :
    (s.setQueue i j queue).unlinked c = (s.unlinked c).setQueue i j queue := by
  rw [setQueue_eq s, setQueue_eq (s.unlinked c), setQueue_congr (t := s.unlinked c) (s := s) rfl]
  rfl

theorem setQueue_unlinkAll (s : Server) (i j : Nat) (queue : Queue) (refs : List ConnId) :
    (s.setQueue i j queue).unlinkAll refs = (s.unlinkAll refs).setQueue i j queue := by
  induction refs generalizing s with
  | nil => rfl
  | cons c refs ih =>
      change ((s.setQueue i j queue).unlinked c).unlinkAll refs = _
      rw [setQueue_unlinked, ih]
      rfl

theorem setQueue_again (s : Server) (i j : Nat) (first second : Queue) :
    (s.setQueue i j first).setQueue i j second = s.setQueue i j second := by
  cases live : s.line i with
  | none =>
      have same : ∀ queue, s.setQueue i j queue = s := fun queue => by rw [setQueue, live]
      rw [same, same]
  | some line =>
      have inside : i < s.registry.queueList.length := by
        by_contra outside
        rw [Server.line, List.getElem?_eq_none (by omega)] at live
        cases live
      have now : (s.setQueue i j first).line i = some { line with queue := line.queue.set j first } := by
        rw [setQueue, live]
        simp [Server.line, setLine, inside]
      rw [setQueue, now, setQueue, live, setQueue, live]
      simp [setLine]

theorem setQueue_self {i j : Nat} {queue : Queue} (live : s.queue i j = some queue) :
    s.setQueue i j queue = s := by
  unfold Server.queue at live
  cases isLine : s.line i with
  | none =>
      rw [isLine] at live
      cases live
  | some line =>
      rw [isLine] at live
      obtain ⟨inside, entry⟩ := List.getElem?_eq_some_iff.mp live
      have lines : line.queue.set j queue = line.queue := by
        rw [← entry, List.set_getElem_self]
      rw [setQueue, isLine]
      simp only [lines, setLine]
      have slot : s.registry.queueList[i]? = some (some line) := Option.join_eq_some_iff.mp isLine
      obtain ⟨below, found⟩ := List.getElem?_eq_some_iff.mp slot
      rw [← found, List.set_getElem_self]

end Server

namespace Routine

variable {i j : Nat} {s t u : Server}

theorem setQueue_live {old : Queue} (live : t.queue i j = some old) (queue : Queue) :
    (t.setQueue i j queue).queue i j = some queue := by
  rw [Server.queue_eq, Server.setQueue_queueAt live, if_pos ⟨rfl, rfl⟩]

/-- An entry is dropped when its connection has a reference left. -/
theorem dropEntry_returned {kept rest : List ConnId} {clients : List Message} {w : ConnId}
    (live : t.queue i j = some ⟨kept ++ w :: rest, clients⟩) :
    t.dropEntry i j kept.length = .returned u () ↔
      0 < (t.conns w).link ∧ u = (t.unlinked w).setQueue i j ⟨kept ++ rest, clients⟩ := by
  have found : t.workerAt i j kept.length = some w := by
    rw [Server.workerAt, live]
    simp
  have erased : t.eraseWorker i j kept.length = t.setQueue i j ⟨kept ++ rest, clients⟩ := by
    rw [Server.eraseWorker, live]
    simp [List.eraseIdx_append_of_length_le]
  rw [Server.dropEntry, found]
  simp only
  rw [erased, Server.unlink_eq, Server.setQueue_conns, Server.setQueue_unlinked]
  by_cases positive : 0 < (t.conns w).link
  · rw [if_pos positive, Outcome.returned.injEq, eq_comm]
    simp [positive]
  · rw [if_neg positive]
    simp [positive]

/-- A step that drops a reference and rewrites the deque, in front of others that
do the same. -/
theorem cleaning_on {old mid last : Queue} {c : ConnId} {refs : List ConnId} {ends : Server → Prop}
    {kept : Prop} (live : t.queue i j = some old)
    (later : ∀ m : Server, (∀ x, m.conns x = { t.conns x with link := (m.conns x).link }) →
      m.queue i j = some mid → (∀ x, (m.conns x).link = ((t.unlinked c).conns x).link) →
      (ends m ↔ kept ∧ (t.unlinked c).Unlinkable refs ∧ u = (m.unlinkAll refs).setQueue i j last)) :
    (∃ m, (0 < (t.conns c).link ∧ m = (t.unlinked c).setQueue i j mid) ∧ ends m) ↔
      kept ∧ t.Unlinkable (c :: refs) ∧ u = (t.unlinkAll (c :: refs)).setQueue i j last := by
  have now : (t.unlinked c).queue i j = some old := live
  have conns := Server.setQueue_conns (t.unlinked c) i j mid
  have steps := later ((t.unlinked c).setQueue i j mid) (fun x => by rw [conns, Server.unlinked_same])
    (setQueue_live now mid) fun x => by rw [conns]
  have whole : (((t.unlinked c).setQueue i j mid).unlinkAll refs).setQueue i j last =
      (t.unlinkAll (c :: refs)).setQueue i j last := by
    rw [Server.setQueue_unlinkAll, Server.setQueue_again]
    rfl
  rw [whole] at steps
  constructor
  · rintro ⟨m, ⟨positive, rfl⟩, ended⟩
    obtain ⟨stays, rest, equal⟩ := steps.mp ended
    exact ⟨stays, ⟨positive, rest⟩, equal⟩
  · rintro ⟨stays, ⟨positive, rest⟩, equal⟩
    exact ⟨_, ⟨positive, rfl⟩, steps.mpr ⟨stays, rest, equal⟩⟩

theorem cleanWorkers_returned (fuel : Nat) (clients : List Message) (kept rest : List ConnId) {t : Server}
    (live : t.queue i j = some ⟨kept ++ rest, clients⟩) (enough : rest.length ≤ fuel) :
    (cleanWorkers i j fuel kept.length).outcome Action.apply t = .returned u () ↔
      t.Kept rest ∧ t.Unlinkable (t.staleWorkers rest) ∧
        u = (t.unlinkAll (t.staleWorkers rest)).setQueue i j ⟨kept ++ rest.filter t.idle, clients⟩ := by
  induction fuel generalizing kept rest t with
  | zero =>
      have nothing : rest = [] := by simpa using enough
      subst nothing
      have self := Server.setQueue_self live
      rw [cleanWorkers, pure_returned]
      change u = t ∧ () = () ↔ _ ∧ _ ∧ u = t.setQueue i j _
      rw [List.filter_nil, self]
      simp [Server.Kept, Server.staleWorkers, Server.Unlinkable]
  | succ fuel ih =>
      rw [cleanWorkers, look_returned]
      cases rest with
      | nil =>
          have nothing : t.workerAt i j kept.length = none := by
            rw [Server.workerAt, live]
            simp
          have self := Server.setQueue_self live
          rw [nothing]
          simp only
          rw [pure_returned]
          change u = t ∧ () = () ↔ _ ∧ _ ∧ u = t.setQueue i j _
          rw [List.filter_nil, self]
          simp [Server.Kept, Server.staleWorkers, Server.Unlinkable]
      | cons w rest =>
          have found : t.workerAt i j kept.length = some w := by
            rw [Server.workerAt, live]
            simp
          have fewer : rest.length ≤ fuel := by
            rw [List.length_cons] at enough
            omega
          rw [found]
          simp only
          rw [use_returned, Server.Kept, List.forall_mem_cons, and_assoc]
          refine and_congr_right fun _ => ?_
          cases waits : t.idle w with
          | true =>
              have stays : ¬((t.conns w).closed || decide ((t.conns w).status ≠ .workerWaitJob)) = true := by
                rw [Server.idle] at waits
                simpa using waits
              have here : kept.length + 1 = (kept ++ [w]).length := by simp
              have more : kept ++ w :: rest.filter t.idle = (kept ++ [w]) ++ rest.filter t.idle := by simp
              rw [if_neg stays, here, ih (kept ++ [w]) rest (by simpa using live) fewer, Server.staleWorkers,
                Server.staleWorkers, List.filter_cons, List.filter_cons, waits, if_pos rfl, more]
              rfl
          | false =>
              have leaves : ((t.conns w).closed || decide ((t.conns w).status ≠ .workerWaitJob)) = true := by
                rw [Server.idle] at waits
                cases closed : (t.conns w).closed with
                | true => rfl
                | false => simpa [closed] using waits
              have stale : t.staleWorkers (w :: rest) = w :: t.staleWorkers rest := by
                simp [Server.staleWorkers, waits]
              rw [if_pos leaves, act_returned, stale, List.filter_cons, waits, if_neg Bool.false_ne_true]
              simp only [Action.apply, dropEntry_returned live]
              refine cleaning_on live fun m same liveNow conns => ?_
              rw [ih kept rest liveNow fewer, Server.kept_same same, Server.staleWorkers_same same,
                Server.unlinkable_congr conns, funext (Server.idle_same same)]
              rfl

theorem discard_returned {workers : List ConnId} {kept rest : List Message} {message : Message} {d : ConnId}
    (live : t.queue i j = some ⟨workers, kept ++ message :: rest⟩) (client : message.conn = some d) :
    t.discard i j kept.length = .returned u () ↔
      0 < (t.conns d).link ∧ u = (t.unlinked d).setQueue i j ⟨workers, kept ++ rest⟩ := by
  have found : t.messageAt i j kept.length = some message := by
    rw [Server.messageAt, live]
    simp
  have erased : t.eraseMessage i j kept.length = t.setQueue i j ⟨workers, kept ++ rest⟩ := by
    rw [Server.eraseMessage, live]
    simp [List.eraseIdx_append_of_length_le]
  rw [Server.discard, found]
  simp only
  rw [erased, Server.deleteMessage, client]
  simp only
  rw [Server.unlink_noexcept, Server.setQueue_conns, Server.setQueue_unlinked]

theorem cleanClients_returned (fuel : Nat) (workers : List ConnId) (kept rest : List Message) {t : Server}
    (live : t.queue i j = some ⟨workers, kept ++ rest⟩) (enough : rest.length ≤ fuel) :
    (cleanClients i j fuel kept.length).outcome Action.apply t = .returned u () ↔
      t.Kept (rest.filterMap Message.conn) ∧ t.Unlinkable (t.staleClients rest) ∧
        u = (t.unlinkAll (t.staleClients rest)).setQueue i j ⟨workers, kept ++ rest.filter t.alive⟩ := by
  induction fuel generalizing kept rest t with
  | zero =>
      have nothing : rest = [] := by simpa using enough
      subst nothing
      have self := Server.setQueue_self live
      rw [cleanClients, pure_returned]
      change u = t ∧ () = () ↔ _ ∧ _ ∧ u = t.setQueue i j _
      rw [List.filter_nil, self]
      simp [Server.Kept, Server.staleClients, Server.Unlinkable]
  | succ fuel ih =>
      rw [cleanClients, look_returned]
      cases rest with
      | nil =>
          have nothing : t.messageAt i j kept.length = none := by
            rw [Server.messageAt, live]
            simp
          have self := Server.setQueue_self live
          rw [nothing]
          simp only
          rw [pure_returned]
          change u = t ∧ () = () ↔ _ ∧ _ ∧ u = t.setQueue i j _
          rw [List.filter_nil, self]
          simp [Server.Kept, Server.staleClients, Server.Unlinkable]
      | cons message rest =>
          have found : t.messageAt i j kept.length = some message := by
            rw [Server.messageAt, live]
            simp
          have fewer : rest.length ≤ fuel := by
            rw [List.length_cons] at enough
            omega
          have here : kept.length + 1 = (kept ++ [message]).length := by simp
          have onward := ih (kept ++ [message]) rest (by simpa using live) fewer
          rw [← here] at onward
          have more : kept ++ message :: rest.filter t.alive = (kept ++ [message]) ++ rest.filter t.alive := by
            simp
          rw [found]
          simp only
          cases client : message.conn with
          | none =>
              have lives : t.alive message = true := by rw [Server.alive, client]
              simp only
              rw [onward, List.filterMap_cons_none client, Server.staleClients, Server.staleClients,
                List.filter_cons, List.filter_cons, lives, if_pos rfl, more]
              rfl
          | some d =>
              simp only
              rw [use_returned, List.filterMap_cons_some client, Server.Kept, List.forall_mem_cons, and_assoc]
              refine and_congr_right fun _ => ?_
              cases lives : t.alive message with
              | true =>
                  have stays : ¬((t.conns d).closed || decide ((t.conns d).status ≠ .clientWaitResult)) =
                      true := by
                    rw [Server.alive, client] at lives
                    simpa using lives
                  rw [if_neg stays, onward, Server.staleClients, Server.staleClients, List.filter_cons,
                    List.filter_cons, lives, if_pos rfl, more]
                  rfl
              | false =>
                  have leaves : ((t.conns d).closed || decide ((t.conns d).status ≠ .clientWaitResult)) =
                      true := by
                    rw [Server.alive, client] at lives
                    cases closed : (t.conns d).closed with
                    | true => rfl
                    | false => simpa [closed] using lives
                  have stale : t.staleClients (message :: rest) = d :: t.staleClients rest := by
                    simp [Server.staleClients, lives, client]
                  rw [if_pos leaves, act_returned, stale, List.filter_cons, lives, if_neg Bool.false_ne_true]
                  simp only [Action.apply, discard_returned live client]
                  refine cleaning_on live fun m same liveNow conns => ?_
                  rw [ih kept rest liveNow fewer, Server.kept_same same, Server.staleClients_same same,
                    Server.unlinkable_congr conns, funext (Server.alive_same same)]
                  rfl

end Routine

namespace Server

variable {s t : Server}

/-! ### The whole pass -/

/-- The deques the pass goes through: those of a queue whose mutex is free. -/
def visited (s : Server) (place : Nat × Nat) : Option Queue :=
  match s.line place.1 with
  | none => none
  | some line => if line.locked then none else line.queue[place.2]?

/-- The connections the pass looks at there. -/
def entriesAt (s : Server) (place : Nat × Nat) : List ConnId :=
  match s.visited place with
  | none => []
  | some queue => queue.workers ++ queue.clients.filterMap Message.conn

/-- The references given up there. -/
def staleAt (s : Server) (place : Nat × Nat) : List ConnId :=
  match s.visited place with
  | none => []
  | some queue => s.staleWorkers queue.workers ++ s.staleClients queue.clients

def sweepAt (s : Server) (place : Nat × Nat) : Server :=
  match s.visited place with
  | none => s
  | some queue => (s.unlinkAll (s.staleAt place)).setQueue place.1 place.2 (s.cleaned queue)

/-- The state after a pass. -/
def sweep (s : Server) : Server := (Routine.dequesOf s).foldl sweepAt s

/-- All references the pass gives up. -/
def stale (s : Server) : List ConnId := (Routine.dequesOf s).flatMap s.staleAt

/-- No connection it looks at has been freed, and each has as many references
as are given up. -/
structure Sweepable (s : Server) : Prop where
  kept : ∀ place ∈ Routine.dequesOf s, s.Kept (s.entriesAt place)
  counted : ∀ x ∈ s.stale, (s.stale.count x : Int) ≤ (s.conns x).link

instance (s : Server) : Decidable s.Sweepable :=
  decidable_of_iff ((∀ place ∈ Routine.dequesOf s, s.Kept (s.entriesAt place)) ∧
      ∀ x ∈ s.stale, (s.stale.count x : Int) ≤ (s.conns x).link)
    ⟨fun both => ⟨both.1, both.2⟩, fun sweepable => ⟨sweepable.kept, sweepable.counted⟩⟩

theorem visited_queue {place : Nat × Nat} {queue : Queue} (found : s.visited place = some queue) :
    s.queue place.1 place.2 = some queue := by
  unfold visited at found
  unfold Server.queue
  cases live : s.line place.1 with
  | none =>
      rw [live] at found
      cases found
  | some line =>
      rw [live] at found
      exact (Option.ite_none_left_eq_some.mp found).2

theorem sweepAt_same (s : Server) (place : Nat × Nat) (x : ConnId) :
    (s.sweepAt place).conns x = { s.conns x with link := ((s.sweepAt place).conns x).link } := by
  unfold sweepAt
  cases s.visited place with
  | none => rfl
  | some queue =>
      simp only
      rw [setQueue_conns, unlinkAll_same]

theorem sweepAt_link (s : Server) (place : Nat × Nat) (x : ConnId) :
    ((s.sweepAt place).conns x).link = ((s.unlinkAll (s.staleAt place)).conns x).link := by
  unfold sweepAt
  cases nothing : s.visited place with
  | none =>
      rw [staleAt, nothing]
      rfl
  | some queue =>
      simp only
      rw [setQueue_conns]

/-- A deque is visited as before when another one was written. -/
theorem setQueue_visited {i j : Nat} {old : Queue} (live : s.queue i j = some old) (new : Queue)
    {place : Nat × Nat} (other : place ≠ (i, j)) : (s.setQueue i j new).visited place = s.visited place := by
  have queues := setQueue_queueAt live new place.1 place.2
  rw [if_neg fun both => other (Prod.ext both.1 both.2)] at queues
  unfold visited
  unfold setQueue at queues ⊢
  cases isLine : s.line i with
  | none => rfl
  | some line =>
      simp only [isLine] at queues ⊢
      by_cases slot : place.1 = i
      · have inside : i < s.registry.queueList.length := by
          by_contra outside
          rw [Server.line, List.getElem?_eq_none (by omega)] at isLine
          cases isLine
        have loop : j ≠ place.2 := fun same => other (Prod.ext slot same.symm)
        have now : (s.setLine i { line with queue := line.queue.set j new }).line i =
            some { line with queue := line.queue.set j new } := by
          simp [Server.line, setLine, inside]
        rw [slot, now, isLine]
        simp only
        rw [List.getElem?_set_ne loop]
      · have same : (s.setLine i { line with queue := line.queue.set j new }).line place.1 =
            s.line place.1 := by
          simp [Server.line, setLine, List.getElem?_set_ne (Ne.symm slot)]
        rw [same]

theorem sweepAt_visited {place other : Nat × Nat} (apart : other ≠ place) :
    (s.sweepAt place).visited other = s.visited other := by
  unfold sweepAt
  cases found : s.visited place with
  | none => rfl
  | some queue =>
      simp only
      have live : (s.unlinkAll (s.staleAt place)).queue place.1 place.2 = some queue := by
        rw [unlinkAll_eq]
        exact visited_queue found
      rw [setQueue_visited live _ apart, unlinkAll_eq]
      rfl

theorem sweepAt_staleAt {place other : Nat × Nat} (apart : other ≠ place) :
    (s.sweepAt place).staleAt other = s.staleAt other := by
  unfold staleAt
  rw [sweepAt_visited apart]
  cases s.visited other with
  | none => rfl
  | some queue =>
      simp only
      rw [staleWorkers_same (sweepAt_same s place), staleClients_same (sweepAt_same s place)]

theorem sweepAt_entriesAt {place other : Nat × Nat} (apart : other ≠ place) :
    (s.sweepAt place).entriesAt other = s.entriesAt other := by
  unfold entriesAt
  rw [sweepAt_visited apart]

end Server

namespace Routine

open Server

variable {s t : Server}

/-- The body of the pass at one deque. -/
def cleanPlace (i j : Nat) (queue : Queue) : Routine Unit := do
  let s ← get
  match s.line i with
  | none => fault
  | some line =>
      if line.locked then return
      cleanWorkers i j queue.workers.length 0
      cleanClients i j queue.clients.length 0

theorem cleanPlace_returned {i j : Nat} {queue : Queue} (live : s.queue i j = some queue) :
    (cleanPlace i j queue).outcome Action.apply s = .returned t () ↔
      s.Kept (s.entriesAt (i, j)) ∧ s.Unlinkable (s.staleAt (i, j)) ∧ t = s.sweepAt (i, j) := by
  have found := live
  unfold Server.queue at found
  cases isLine : s.line i with
  | none =>
      rw [isLine] at found
      cases found
  | some line =>
      rw [isLine] at found
      rw [cleanPlace, look_returned, isLine]
      simp only
      cases free : line.locked with
      | true =>
          have nothing : s.visited (i, j) = none := by
            rw [visited, isLine]
            simp [free]
          rw [if_pos rfl, pure_returned, entriesAt, staleAt, sweepAt, nothing]
          simp [Server.Kept, Server.Unlinkable]
      | false =>
          have here : s.visited (i, j) = some queue := by
            rw [visited, isLine]
            simpa [free] using found
          let m := (s.unlinkAll (s.staleWorkers queue.workers)).setQueue i j
            ⟨queue.workers.filter s.idle, queue.clients⟩
          have same : ∀ x, m.conns x = { s.conns x with link := (m.conns x).link } := fun x => by
            rw [setQueue_conns, unlinkAll_same]
          have now : (s.unlinkAll (s.staleWorkers queue.workers)).queue i j = some queue := by
            rw [unlinkAll_eq]
            exact live
          have workers := fun u => cleanWorkers_returned (u := u) queue.workers.length queue.clients [] queue.workers
            live (Nat.le_refl _)
          have clients := cleanClients_returned (u := t) queue.clients.length (queue.workers.filter s.idle) []
            queue.clients (t := m) (setQueue_live now _) (Nat.le_refl _)
          simp only [List.length_nil, List.nil_append] at workers clients
          rw [kept_same same, staleClients_same same,
            unlinkable_congr (s := s.unlinkAll (s.staleWorkers queue.workers)) fun x => by
              rw [setQueue_conns], funext (alive_same same)] at clients
          have last : (m.unlinkAll (s.staleClients queue.clients)).setQueue i j
              ⟨queue.workers.filter s.idle, queue.clients.filter s.alive⟩ = s.sweepAt (i, j) := by
            rw [setQueue_unlinkAll, setQueue_again, ← unlinkAll_append, sweepAt, staleAt, here]
            rfl
          rw [last] at clients
          rw [if_neg Bool.false_ne_true, bind_returned, entriesAt, staleAt, here, unlinkable_append]
          simp only [Server.Kept, List.forall_mem_append]
          constructor
          · rintro ⟨middle, ⟨⟩, first, second⟩
            obtain ⟨keptWorkers, linkedWorkers, rfl⟩ := (workers middle).mp first
            obtain ⟨keptClients, linkedClients, rfl⟩ := clients.mp second
            exact ⟨⟨keptWorkers, keptClients⟩, ⟨linkedWorkers, linkedClients⟩, rfl⟩
          · rintro ⟨⟨keptWorkers, keptClients⟩, ⟨linkedWorkers, linkedClients⟩, rfl⟩
            exact ⟨m, (), (workers m).mpr ⟨keptWorkers, linkedWorkers, rfl⟩,
              clients.mpr ⟨keptClients, linkedClients, rfl⟩⟩

theorem eachDeque_returned {places : List (Nat × Nat)} (distinct : places.Nodup) {s : Server} :
    (eachDeque cleanPlace places).outcome Action.apply s = .returned t () ↔
      (∀ place ∈ places, s.Kept (s.entriesAt place)) ∧ s.Unlinkable (places.flatMap s.staleAt) ∧
        t = places.foldl sweepAt s := by
  induction places generalizing s with
  | nil =>
      rw [eachDeque, pure_returned]
      simp [Server.Unlinkable]
  | cons place places ih =>
      rw [List.nodup_cons] at distinct
      have apart : ∀ other ∈ places, other ≠ place := by
        rintro other member rfl
        exact distinct.1 member
      have rest := ih distinct.2 (s := s.sweepAt place)
      have entries : (∀ other ∈ places, (s.sweepAt place).Kept ((s.sweepAt place).entriesAt other)) ↔
          ∀ other ∈ places, s.Kept (s.entriesAt other) := by
        refine forall₂_congr fun other member => ?_
        rw [sweepAt_entriesAt (apart other member), kept_same (sweepAt_same s place)]
      have stale : places.flatMap (s.sweepAt place).staleAt = places.flatMap s.staleAt :=
        List.flatMap_congr fun other member => sweepAt_staleAt (apart other member)
      rw [entries, stale, unlinkable_congr (sweepAt_link s place)] at rest
      rw [List.forall_mem_cons, List.flatMap_cons, unlinkable_append]
      obtain ⟨i, j⟩ := place
      rw [eachDeque, look_returned]
      cases live : s.queue i j with
      | none =>
          have nothing : s.visited (i, j) = none := by
            by_contra found
            obtain ⟨queue, isQueue⟩ := Option.ne_none_iff_exists'.mp found
            rw [visited_queue isQueue] at live
            cases live
          have entriesNone : s.entriesAt (i, j) = [] := by rw [entriesAt, nothing]
          have staleNone : s.staleAt (i, j) = [] := by rw [staleAt, nothing]
          have stays : s.sweepAt (i, j) = s := by rw [sweepAt, nothing]
          rw [stays] at rest
          rw [entriesNone, staleNone, List.foldl_cons, stays]
          simp only
          rw [rest, staleNone]
          simp [Server.Kept, Server.Unlinkable]
      | some queue =>
          simp only
          rw [bind_returned]
          constructor
          · rintro ⟨middle, ⟨⟩, first, later⟩
            obtain ⟨kept, linked, rfl⟩ := (cleanPlace_returned live).mp first
            obtain ⟨keptRest, linkedRest, rfl⟩ := rest.mp later
            exact ⟨⟨kept, keptRest⟩, ⟨linked, linkedRest⟩, rfl⟩
          · rintro ⟨⟨kept, keptRest⟩, ⟨linked, linkedRest⟩, rfl⟩
            exact ⟨s.sweepAt (i, j), (), (cleanPlace_returned live).mpr ⟨kept, linked, rfl⟩,
              rest.mpr ⟨keptRest, linkedRest, rfl⟩⟩

theorem nodup_dequesOf (s : Server) : (dequesOf s).Nodup :=
  List.Nodup.product List.nodup_range List.nodup_range

theorem cleanDeadTasks_returned : cleanDeadTasks.outcome Action.apply s = .returned t () ↔
    s.Sweepable ∧ t = s.sweep := by
  have pass := eachDeque_returned (t := t) (nodup_dequesOf s) (s := s)
  rw [unlinkable_iff] at pass
  have whole : cleanDeadTasks.outcome Action.apply s = .returned t () ↔
      (eachDeque cleanPlace (dequesOf s)).outcome Action.apply s = .returned t () := by
    rw [cleanDeadTasks, look_returned, catching_fault_returned]
    rfl
  rw [whole, pass, ← and_assoc]
  exact and_congr_left fun _ => ⟨fun both => ⟨both.1, both.2⟩, fun both => ⟨both.kept, both.counted⟩⟩

end Routine

/-! ### What is left -/

/-- All but the deques. -/
def QueueLine.frame (line : QueueLine) : QueueLine := { line with queue := [] }

namespace Server

variable {s t : Server}

theorem setQueue_frame (s : Server) (i j : Nat) (queue : Queue) (i' : Nat) :
    ((s.setQueue i j queue).line i').map QueueLine.frame = (s.line i').map QueueLine.frame := by
  unfold setQueue
  cases live : s.line i with
  | none => rfl
  | some line =>
      by_cases same : i' = i
      · subst same
        have inside : i' < s.registry.queueList.length := by
          by_contra outside
          rw [Server.line, List.getElem?_eq_none (by omega)] at live
          cases live
        rw [live]
        simp [Server.line, setLine, inside, QueueLine.frame]
      · simp [Server.line, setLine, List.getElem?_set_ne (Ne.symm same)]

theorem sweepAt_self (s : Server) (place : Nat × Nat) :
    (s.sweepAt place).visited place = (s.visited place).map s.cleaned := by
  unfold sweepAt
  cases found : s.visited place with
  | none => exact found
  | some queue =>
      have queues := visited_queue found
      have live : (s.unlinkAll (s.staleAt place)).queue place.1 place.2 = some queue := by
        rw [unlinkAll_eq]
        exact queues
      have now := Routine.setQueue_live live (s.cleaned queue)
      have frame := setQueue_frame (s.unlinkAll (s.staleAt place)) place.1 place.2 (s.cleaned queue) place.1
      have before : (s.unlinkAll (s.staleAt place)).line place.1 = s.line place.1 := by
        rw [unlinkAll_eq]
        rfl
      rw [before] at frame
      simp only [Option.map_some]
      unfold Server.queue at now
      unfold visited at found ⊢
      cases isLine : s.line place.1 with
      | none =>
          rw [isLine] at found
          cases found
      | some line =>
          rw [isLine] at found frame
          obtain ⟨free, -⟩ := Option.ite_none_left_eq_some.mp found
          obtain ⟨new, isNew, same⟩ := Option.map_eq_some_iff.mp frame
          rw [isNew] at now ⊢
          have locks : new.frame.locked = line.frame.locked := by rw [same]
          change new.locked = line.locked at locks
          simp only
          rw [locks, if_neg free]
          exact now

theorem sweepPlaces_visited (s : Server) {places : List (Nat × Nat)} (distinct : places.Nodup)
    (place : Nat × Nat) : (places.foldl sweepAt s).visited place =
      if place ∈ places then (s.visited place).map s.cleaned else s.visited place := by
  induction places generalizing s with
  | nil => rfl
  | cons first places ih =>
      rw [List.nodup_cons] at distinct
      rw [List.foldl_cons, ih _ distinct.2]
      by_cases same : place = first
      · subst same
        rw [if_neg distinct.1, if_pos List.mem_cons_self, sweepAt_self]
      · rw [sweepAt_visited same, funext (cleaned_same (sweepAt_same s first))]
        simp only [List.mem_cons, same, false_or]

theorem sweepAt_frame (s : Server) (place : Nat × Nat) (i : Nat) :
    ((s.sweepAt place).line i).map QueueLine.frame = (s.line i).map QueueLine.frame := by
  unfold sweepAt
  cases s.visited place with
  | none => rfl
  | some queue =>
      simp only
      rw [setQueue_frame, unlinkAll_eq]
      rfl

theorem sweepPlaces_frame (s : Server) (places : List (Nat × Nat)) (i : Nat) :
    ((places.foldl sweepAt s).line i).map QueueLine.frame = (s.line i).map QueueLine.frame := by
  induction places generalizing s with
  | nil => rfl
  | cons place places ih => rw [List.foldl_cons, ih, sweepAt_frame]

/-- What a pass writes. -/
structure Confined (s t : Server) : Prop where
  mapper : t.registry.mapper = s.registry.mapper
  slots : t.registry.queueList.length = s.registry.queueList.length
  rest : t = { s with registry := t.registry, conns := t.conns, dead := t.dead }

theorem Confined.trans {u : Server} (first : Confined s t) (second : Confined t u) : Confined s u := by
  refine ⟨second.mapper.trans first.mapper, second.slots.trans first.slots, ?_⟩
  rw [second.rest, first.rest]

theorem setQueue_confined (s : Server) (i j : Nat) (queue : Queue) : Confined s (s.setQueue i j queue) := by
  refine ⟨?_, ?_, setQueue_eq s i j queue ▸ rfl⟩
  · unfold setQueue
    cases s.line i <;> rfl
  · unfold setQueue
    cases s.line i with
    | none => rfl
    | some line => exact List.length_set

theorem sweepPlaces_confined (s : Server) (places : List (Nat × Nat)) :
    Confined s (places.foldl sweepAt s) := by
  induction places generalizing s with
  | nil => exact ⟨rfl, rfl, rfl⟩
  | cons place places ih =>
      refine Confined.trans ?_ (ih (s.sweepAt place))
      unfold sweepAt
      cases s.visited place with
      | none => exact ⟨rfl, rfl, rfl⟩
      | some queue =>
          refine Confined.trans ⟨?_, ?_, ?_⟩ (setQueue_confined _ _ _ _) <;> rw [unlinkAll_eq]

/-- The counts and the dead connections depend on nothing else. -/
theorem unlinkAll_congr (refs : List ConnId) (conns : t.conns = s.conns) (dead : t.dead = s.dead) :
    (t.unlinkAll refs).conns = (s.unlinkAll refs).conns ∧ (t.unlinkAll refs).dead = (s.unlinkAll refs).dead := by
  induction refs generalizing s t with
  | nil => exact ⟨conns, dead⟩
  | cons c refs ih =>
      refine ih (s := s.unlinked c) (t := t.unlinked c) ?_ ?_
      · funext x
        rw [unlinked_conns, unlinked_conns, conns]
      · rw [unlinked, unlinked, conns, dead]

theorem sweepPlaces_conns (s : Server) {places : List (Nat × Nat)} (distinct : places.Nodup) :
    (places.foldl sweepAt s).conns = (s.unlinkAll (places.flatMap s.staleAt)).conns ∧
      (places.foldl sweepAt s).dead = (s.unlinkAll (places.flatMap s.staleAt)).dead := by
  induction places generalizing s with
  | nil => exact ⟨rfl, rfl⟩
  | cons place places ih =>
      rw [List.nodup_cons] at distinct
      have stale : places.flatMap (s.sweepAt place).staleAt = places.flatMap s.staleAt :=
        List.flatMap_congr fun other member => sweepAt_staleAt fun same => distinct.1 (same ▸ member)
      have later := ih (s.sweepAt place) distinct.2
      rw [stale] at later
      have first : (s.sweepAt place).conns = (s.unlinkAll (s.staleAt place)).conns ∧
          (s.sweepAt place).dead = (s.unlinkAll (s.staleAt place)).dead := by
        unfold sweepAt
        cases nothing : s.visited place with
        | none =>
            rw [staleAt, nothing]
            exact ⟨rfl, rfl⟩
        | some queue =>
            simp only
            rw [setQueue_eq]
            exact ⟨rfl, rfl⟩
      have rest := unlinkAll_congr (places.flatMap s.staleAt) first.1 first.2
      rw [List.foldl_cons, List.flatMap_cons, unlinkAll_append]
      exact ⟨later.1.trans rest.1, later.2.trans rest.2⟩

/-- What a pass that returns has done: of every queue whose mutex is free, the
entries that do not wait are gone from the deques of all loops, the others stand
in their order; each connection has lost as many references as entries, and is
declared dead with the last one; nothing else was written. -/
structure Swept (s t : Server) : Prop where
  cleaned : ∀ i j queue, j < s.threads → s.visited (i, j) = some queue →
    t.queue i j = some (s.cleaned queue)
  others : ∀ i j, s.visited (i, j) = none ∨ s.threads ≤ j → t.queue i j = s.queue i j
  frame : ∀ i, (t.line i).map QueueLine.frame = (s.line i).map QueueLine.frame
  conns : ∀ x, t.conns x = { s.conns x with link := (s.conns x).link - s.stale.count x }
  dead : ∃ last, t.dead = s.dead ++ last ∧ last.Nodup ∧
    ∀ x, x ∈ last ↔ x ∈ s.stale ∧ (s.stale.count x : Int) = (s.conns x).link
  confined : Confined s t

theorem mem_dequesOf {i j : Nat} :
    (i, j) ∈ Routine.dequesOf s ↔ i < s.registry.queueList.length ∧ j < s.threads := by
  simp [Routine.dequesOf]

theorem visited_inside {i j : Nat} {queue : Queue} (found : s.visited (i, j) = some queue) :
    i < s.registry.queueList.length := by
  by_contra outside
  have nothing : s.line i = none := by
    rw [Server.line, List.getElem?_eq_none (by omega)]
    rfl
  rw [visited, nothing] at found
  cases found

theorem sweepPlaces_others (s : Server) (places : List (Nat × Nat)) {i j : Nat}
    (out : s.visited (i, j) = none ∨ (i, j) ∉ places) : (places.foldl sweepAt s).queue i j = s.queue i j := by
  induction places generalizing s with
  | nil => rfl
  | cons place places ih =>
      have stays : (s.sweepAt place).visited (i, j) = none ∨ (i, j) ∉ places := by
        rcases out with none | absent
        · by_cases same : (i, j) = place
          · subst same
            rw [sweepAt_self, none]
            exact .inl rfl
          · rw [sweepAt_visited same]
            exact .inl none
        · exact .inr fun member => absent (List.mem_cons_of_mem place member)
      rw [List.foldl_cons, ih _ stays]
      unfold sweepAt
      cases found : s.visited place with
      | none => rfl
      | some queue =>
          have apart : ¬(i = place.1 ∧ j = place.2) := by
            rintro ⟨rfl, rfl⟩
            rcases out with none | absent
            · rw [none] at found
              cases found
            · exact absent List.mem_cons_self
          have live : (s.unlinkAll (s.staleAt place)).queue place.1 place.2 = some queue := by
            rw [unlinkAll_eq]
            exact visited_queue found
          simp only
          rw [Server.queue_eq, setQueue_queueAt live, if_neg apart, unlinkAll_eq]
          rfl

theorem sweep_swept (sweepable : s.Sweepable) : Swept s s.sweep := by
  have distinct := Routine.nodup_dequesOf s
  have conns := sweepPlaces_conns s distinct
  have confined := sweepPlaces_confined s (Routine.dequesOf s)
  obtain ⟨last, dead, nodup, mem⟩ := unlinkAll_dead ((unlinkable_iff s s.stale).mpr sweepable.counted)
  refine
    { cleaned := fun i j queue below found => ?_
      others := fun i j out => ?_
      frame := sweepPlaces_frame s _
      conns := fun x => ?_
      dead := ⟨last, conns.2.trans dead, nodup, mem⟩
      confined := confined }
  · have inside : (i, j) ∈ Routine.dequesOf s := mem_dequesOf.mpr ⟨visited_inside found, below⟩
    have now := sweepPlaces_visited s distinct (i, j)
    rw [if_pos inside, found] at now
    exact visited_queue now
  · refine sweepPlaces_others s _ (out.imp_right fun above member => ?_)
    have below := (mem_dequesOf.mp member).2
    omega
  · rw [← unlinkAll_conns]
    exact congrFun conns.1 x

theorem cleaned_twice (s : Server) (queue : Queue) : s.cleaned (s.cleaned queue) = s.cleaned queue := by
  simp [Server.cleaned, List.filter_filter]

theorem sweepPlaces_fixed {places : List (Nat × Nat)} (fixed : ∀ place ∈ places, s.sweepAt place = s) :
    places.foldl sweepAt s = s := by
  induction places with
  | nil => rfl
  | cons place places ih =>
      rw [List.foldl_cons, fixed place List.mem_cons_self]
      exact ih fun other member => fixed other (List.mem_cons_of_mem place member)

theorem sweep_again (sweepable : s.Sweepable) : s.sweep.Sweepable ∧ s.sweep.sweep = s.sweep := by
  have swept := sweep_swept sweepable
  have same : ∀ x, s.sweep.conns x = { s.conns x with link := (s.sweep.conns x).link } := fun x => by
    rw [swept.conns x]
  have places : Routine.dequesOf s.sweep = Routine.dequesOf s := by
    have threads : s.sweep.threads = s.threads := by rw [swept.confined.rest]
    rw [Routine.dequesOf, Routine.dequesOf, swept.confined.slots, threads]
  have visits : ∀ place ∈ Routine.dequesOf s, s.sweep.visited place = (s.visited place).map s.cleaned := by
    intro place member
    have now := sweepPlaces_visited s (Routine.nodup_dequesOf s) place
    rwa [if_pos member] at now
  have clean : ∀ place ∈ Routine.dequesOf s, s.sweep.staleAt place = [] := by
    intro place member
    rw [staleAt, visits place member]
    cases s.visited place with
    | none => rfl
    | some queue =>
        simp only [Option.map_some]
        rw [staleWorkers_same same, staleClients_same same]
        simp [staleWorkers, staleClients, Server.cleaned, List.filter_filter]
  have nothing : s.sweep.stale = [] := by
    rw [stale, places]
    exact List.flatMap_eq_nil_iff.mpr clean
  refine ⟨⟨fun place member => ?_, fun x member => ?_⟩, ?_⟩
  · rw [places] at member
    have before := sweepable.kept place member
    rw [kept_same same]
    intro x entry
    refine before x ?_
    rw [entriesAt, visits place member] at entry
    rw [entriesAt]
    cases found : s.visited place with
    | none =>
        rw [found] at entry
        exact entry
    | some queue =>
        rw [found] at entry
        simp only [Option.map_some, Server.cleaned] at entry
        have workers : (queue.workers.filter s.idle).Sublist queue.workers := List.filter_sublist
        have clients : (queue.clients.filter s.alive).Sublist queue.clients := List.filter_sublist
        exact (workers.append (clients.filterMap Message.conn)).subset entry
  · rw [nothing] at member
    cases member
  · rw [sweep, places]
    refine sweepPlaces_fixed fun place member => ?_
    rw [sweepAt, clean place member, visits place member]
    cases found : s.visited place with
    | none => rfl
    | some queue =>
        have now := visits place member
        rw [found] at now
        simp only [Option.map_some] at now ⊢
        rw [cleaned_same same, cleaned_twice]
        exact setQueue_self (visited_queue now)

end Server

namespace Routine

/-- A pass returns when no connection it looks at has been freed and each has
as many references as its dead entries; it does what `Swept` says, and the next
pass changes nothing. -/
theorem pass_sweeps (s : Server) :
    ((∃ t, cleanDeadTasks.outcome Action.apply s = .returned t ()) ↔ s.Sweepable) ∧
      ∀ t, cleanDeadTasks.outcome Action.apply s = .returned t () →
        Server.Swept s t ∧ cleanDeadTasks.outcome Action.apply t = .returned t () := by
  constructor
  · constructor
    · rintro ⟨t, returned⟩
      exact (cleanDeadTasks_returned.mp returned).1
    · exact fun sweepable => ⟨s.sweep, cleanDeadTasks_returned.mpr ⟨sweepable, rfl⟩⟩
  · intro t returned
    obtain ⟨sweepable, rfl⟩ := cleanDeadTasks_returned.mp returned
    have again := Server.sweep_again sweepable
    exact ⟨Server.sweep_swept sweepable, cleanDeadTasks_returned.mpr ⟨again.1, again.2.symm⟩⟩

end Routine

/-! ### Dispatch behind a pass -/

namespace Server

variable {s t : Server}

/-- The references a search may give up are among those of the pass. -/
theorem Sweepable.search_linked (sweepable : s.Sweepable) {i : Nat} {loops : List Nat} (distinct : loops.Nodup)
    (inside : ∀ j ∈ loops, j < s.threads ∧ ∃ queue, s.visited (i, j) = some queue) (required : Bytes) :
    s.Unlinkable (loops.flatMap fun j => (s.workersIn i j).filter (s.drops required)) := by
  rw [unlinkable_iff]
  have fewer : ∀ x, (loops.flatMap fun j => (s.workersIn i j).filter (s.drops required)).count x ≤
      s.stale.count x := by
    intro x
    let deques := loops.map (Prod.mk i)
    have member : deques ⊆ Routine.dequesOf s := by
      intro place here
      obtain ⟨j, isLoop, rfl⟩ := List.mem_map.mp here
      obtain ⟨below, queue, found⟩ := inside j isLoop
      exact mem_dequesOf.mpr ⟨visited_inside found, below⟩
    have nodup : deques.Nodup := distinct.map (Prod.mk_right_injective i)
    obtain ⟨part, permuted, sub⟩ := nodup.subperm member
    calc (loops.flatMap fun j => (s.workersIn i j).filter (s.drops required)).count x
        = (loops.map fun j => ((s.workersIn i j).filter (s.drops required)).count x).sum := by
          rw [List.count_flatMap]
          rfl
      _ ≤ (loops.map fun j => (s.staleAt (i, j)).count x).sum := by
          refine List.sum_le_sum fun j isLoop => List.Sublist.count_le x ?_
          obtain ⟨-, queue, found⟩ := inside j isLoop
          rw [workersIn_of_queue (visited_queue found), staleAt, found]
          have both : queue.workers.filter (s.drops required) =
              (s.staleWorkers queue.workers).filter (s.wanted required) := by
            rw [staleWorkers, List.filter_filter]
            rfl
          rw [both]
          exact List.filter_sublist.trans (List.sublist_append_left _ _)
      _ = (deques.map fun place => (s.staleAt place).count x).sum := by
          rw [List.map_map]
          rfl
      _ = (part.map fun place => (s.staleAt place).count x).sum := ((permuted.map _).sum_eq).symm
      _ ≤ ((Routine.dequesOf s).map fun place => (s.staleAt place).count x).sum :=
          (sub.map _).sum_le_sum fun _ _ => Nat.zero_le _
      _ = s.stale.count x := by
          rw [stale, List.count_flatMap]
          rfl
  intro x member
  have positive := (List.count_pos_iff.mpr member).trans_le (fewer x)
  have enough := sweepable.counted x (List.count_pos_iff.mp positive)
  have less := fewer x
  omega

end Server

namespace Routine

variable {s : Server}

/-- Where a pass returns the search does, and picks the first worker that suits. -/
theorem search_picks {i own : Nat} (required : Bytes) (sweepable : s.Sweepable)
    (inside : ∀ j ∈ loopOrder own s.threads, j < s.threads ∧ ∃ queue, s.visited (i, j) = some queue) :
    ∃ u place, (findWorkerIn i required (loopOrder own s.threads)).outcome Action.apply s = .returned u place ∧
      picked u i place =
        (s.pick i required (loopOrder own s.threads)).map fun found => (found.1, some found.2) := by
  have distinct := nodup_loopOrder own s.threads
  have deques : ∀ j ∈ loopOrder own s.threads, (s.queue i j).isSome = true := fun j member => by
    obtain ⟨-, queue, found⟩ := inside j member
    rw [Server.visited_queue found]
    rfl
  have kept : s.Kept ((loopOrder own s.threads).flatMap (s.workersIn i)) := fun x member => by
    obtain ⟨j, isLoop, entry⟩ := List.mem_flatMap.mp member
    obtain ⟨below, queue, found⟩ := inside j isLoop
    have kept := sweepable.kept (i, j) (Server.mem_dequesOf.mpr ⟨Server.visited_inside found, below⟩)
    rw [Server.entriesAt, found] at kept
    rw [Server.workersIn_of_queue (Server.visited_queue found)] at entry
    exact kept x (List.mem_append_left _ entry)
  have read := s.searched_prefix required ((loopOrder own s.threads).flatMap (s.workersIn i))
  have linked : s.Unlinkable (s.dropped required ((loopOrder own s.threads).flatMap (s.workersIn i))) := by
    have whole := sweepable.search_linked distinct inside required
    rw [← List.filter_flatMap, Server.unlinkable_iff] at whole
    rw [Server.unlinkable_iff]
    intro x member
    have fewer : (s.dropped required ((loopOrder own s.threads).flatMap (s.workersIn i))).Sublist _ :=
      read.sublist.filter (s.drops required)
    have enough := whole x (fewer.subset member)
    have count := fewer.count_le x
    omega
  rcases findWorkerIn_searches required _ distinct deques with
    ⟨-, -, u, place, ran, -, stands⟩ | ⟨failed, -⟩
  · exact ⟨u, place, ran, stands⟩
  · exact absurd ⟨fun x member => kept x (read.subset member), linked⟩ failed

/-- The deques of slot `i` that a dispatch by a connection of loop `own` goes
through: the pass goes through all of them. -/
def Covered (s : Server) (i own : Nat) : Prop :=
  ∀ j ∈ loopOrder own s.threads, j < s.threads ∧ ∃ queue, s.visited (i, j) = some queue

section Sweep

variable {i own : Nat} (sweepable : s.Sweepable) (inside : Covered s i own)

include sweepable

theorem sweep_same (x : ConnId) : s.sweep.conns x = { s.conns x with link := (s.sweep.conns x).link } := by
  rw [(Server.sweep_swept sweepable).conns x]

theorem sweep_threads : s.sweep.threads = s.threads := by
  rw [(Server.sweep_swept sweepable).confined.rest]

include inside

theorem covered_sweep : Covered s.sweep i own := by
  rw [Covered, sweep_threads sweepable]
  intro j member
  obtain ⟨below, queue, found⟩ := inside j member
  refine ⟨below, s.cleaned queue, ?_⟩
  have now := Server.sweepPlaces_visited s (nodup_dequesOf s) (i, j)
  rw [if_pos (Server.mem_dequesOf.mpr ⟨Server.visited_inside found, below⟩), found] at now
  exact now

theorem sweep_workersIn {j : Nat} (member : j ∈ loopOrder own s.threads) :
    s.sweep.workersIn i j = (s.workersIn i j).filter s.idle := by
  obtain ⟨below, queue, found⟩ := inside j member
  rw [Server.workersIn_of_queue (Server.visited_queue found),
    Server.workersIn_of_queue ((Server.sweep_swept sweepable).cleaned i j queue below found)]
  rfl

theorem sweep_tasks {j : Nat} (member : j ∈ loopOrder own s.threads) :
    s.sweep.tasks i j = (s.tasks i j).filter s.alive := by
  obtain ⟨below, queue, found⟩ := inside j member
  rw [Server.tasks_of_queue (Server.visited_queue found),
    Server.tasks_of_queue ((Server.sweep_swept sweepable).cleaned i j queue below found)]
  rfl

theorem sweep_pick (required : Bytes) :
    s.sweep.pick i required (loopOrder own s.threads) = s.pick i required (loopOrder own s.threads) := by
  rw [Server.pick, Server.pick, Server.suits_same (sweep_same sweepable)]
  refine congrArg List.head? (List.filterMap_congr fun j member => ?_)
  rw [sweep_workersIn sweepable inside member, List.find?_filter]
  congr 1
  refine congrArg (fun test => (s.workersIn i j).find? test) (funext fun w => ?_)
  rw [Server.suits]
  cases s.idle w <;> simp

end Sweep

section Scan

variable (sweepable : s.Sweepable) (env : Env) {c : ConnId}

include sweepable

theorem sweep_fate {before now : Scan} (refused : now.refused = before.refused) (made : now.made = before.made)
    (message : Message) : Server.fate env s.sweep c now message = Server.fate env s c before message := by
  have same := sweep_same sweepable
  have rest := (Server.sweep_swept sweepable).confined.rest
  have generated : s.sweep.generated = s.generated := by rw [rest]
  have waits : ∀ id, s.sweep.waiting id = s.waiting id := fun id => by
    rw [rest]
    rfl
  have http : ∀ x, (s.sweep.conns x).http = (s.conns x).http := fun x => by rw [same x]
  have noid : (s.sweep.conns c).noid = (s.conns c).noid := by rw [same c]
  unfold Server.fate
  simp only [Server.addressed, Server.alive_same same, refused, made, generated, http, noid, waits]

/-- The scan behind the pass gives the same task, and refuses the same clients. -/
theorem sweep_scan (tasks : List Message) (before now : Scan) (refused : now.refused = before.refused)
    (made : now.made = before.made) :
    let scan := s.scan env c before tasks
    let after := s.sweep.scan env c now (tasks.filter s.alive)
    after.given = scan.given ∧ after.refused = scan.refused ∧ after.made = scan.made := by
  induction tasks generalizing before now with
  | nil => exact ⟨rfl, rfl, rfl⟩
  | cons message tasks ih =>
      cases lives : s.alive message with
      | false =>
          have passed : s.eligible c message = false := by rw [Server.eligible, lives, Bool.and_false]
          have isFate : Server.fate env s c before message = _ := Server.fate_passed before passed
          have stays : Server.fate env s c before message ≠ .given := by
            rw [isFate]
            split <;> simp
          have silent : Scan.refused [(message, Server.fate env s c before message)] = [] := by
            rw [isFate]
            split <;> rfl
          have unmade : Scan.made [(message, Server.fate env s c before message)] = 0 := by
            rw [isFate]
            split <;> rfl
          have later := ih (before ++ [(message, Server.fate env s c before message)]) now
            (by rw [Scan.refused_append, silent, List.append_nil, refused])
            (by rw [Scan.made_append, unmade, Nat.add_zero, made])
          rw [List.filter_cons, lives, if_neg Bool.false_ne_true, Server.scan]
          simp only [if_neg stays]
          refine ⟨?_, ?_, ?_⟩
          · rw [Scan.given_other stays]
            exact later.1
          · rw [Scan.refused_cons, silent, List.nil_append]
            exact later.2.1
          · rw [Scan.made_cons, unmade, Nat.zero_add]
            exact later.2.2
      | true =>
          rw [List.filter_cons, lives, if_pos rfl, Server.scan, Server.scan,
            sweep_fate sweepable env refused made message]
          by_cases isGiven : Server.fate env s c before message = .given
          · simp only [if_pos isGiven, and_self]
          · simp only [if_neg isGiven]
            obtain ⟨given, refusedNow, madeNow⟩ := ih
              (before ++ [(message, Server.fate env s c before message)])
              (now ++ [(message, Server.fate env s c before message)])
              (by rw [Scan.refused_append, Scan.refused_append, refused])
              (by rw [Scan.made_append, Scan.made_append, made])
            refine ⟨?_, ?_, ?_⟩
            · rw [Scan.given_other isGiven, Scan.given_other isGiven, given]
            · rw [Scan.refused_cons (s.sweep.scan env c _ _), Scan.refused_cons (s.scan env c _ _), refusedNow]
            · rw [Scan.made_cons (s.sweep.scan env c _ _), Scan.made_cons (s.scan env c _ _), madeNow]

/-- The task of a scan does not depend on when it began. -/
theorem sweep_stop {i own : Nat} (inside : Covered s i own) {loops : List Nat}
    (part : loops ⊆ loopOrder own s.threads) (before now : Scan) (refused : now.refused = before.refused)
    (made : now.made = before.made) : stop env s.sweep c i now loops = stop env s c i before loops := by
  induction loops generalizing before now with
  | nil => rfl
  | cons j loops ih =>
      have member := part List.mem_cons_self
      obtain ⟨given, refusedHere, madeHere⟩ := sweep_scan sweepable env (c := c) (s.tasks i j) before now refused made
      simp only [stop]
      rw [sweep_tasks sweepable inside member, given]
      split
      · rfl
      · exact ih (fun other isLoop => part (List.mem_cons_of_mem j isLoop)) _ _
          (by rw [Scan.refused_append, Scan.refused_append, refused, refusedHere])
          (by rw [Scan.made_append, Scan.made_append, made, madeHere])

end Scan

/-- The task at the place a scan ended with. -/
def stood (u : Server) (i : Nat) (place : Option (Nat × Nat)) : Option (Nat × Option Message) :=
  place.map fun found => (found.1, u.messageAt i found.1 found.2)

theorem SlotScanned.stood {t u : Server} {c : ConnId} {i : Nat} {loops : List Nat} {before scan : Scan}
    {last : Option Nat} {found : Option (Nat × Nat)} (scanned : SlotScanned s c i loops before scan last t u found) :
    Routine.stood u i found = last.bind fun j => scan.given.map fun message => (j, some message) := by
  rw [← scanned.stops]
  have stands := scanned.stands
  cases found with
  | none => rfl
  | some place =>
      obtain ⟨j, p⟩ := place
      obtain ⟨message, _, _, front, back, given, -, -, tasks, position, -⟩ := stands
      rw [Routine.stood, given]
      simp [Server.messageAt_tasks, tasks, position]

section Both

variable {env : Env} {c : ConnId} {i : Nat} (sweepable : s.Sweepable) (inside : Covered s i (s.conns c).nloop)

include sweepable inside

theorem search_scans : ∃ u place,
    (findMessageIn env c i (loopOrder (s.conns c).nloop s.threads)).outcome Action.apply s = .returned u place ∧
      SlotScanned s c i (loopOrder (s.conns c).nloop s.threads) []
        (s.scan env c [] ((loopOrder (s.conns c).nloop s.threads).flatMap (s.tasks i)))
        (stop env s c i [] (loopOrder (s.conns c).nloop s.threads)) s u place := by
  rcases findMessageIn_scans env c _ (nodup_loopOrder _ _) (fun j member => by
      obtain ⟨-, queue, found⟩ := inside j member
      rw [Server.visited_queue found]
      rfl) [] (Server.Passed.refl s i) fun _ _ => rfl with ⟨-, u, place, ran, scanned⟩ | ⟨deleted, -⟩
  · exact ⟨u, place, ran, scanned⟩
  · refine absurd (fun x member => ?_) deleted
    obtain ⟨⟨message, fate⟩, entry, client⟩ := List.mem_filterMap.mp member
    have isClient : message.conn = some x := by
      split at client
      · cases client
      · exact client
    have inTasks : message ∈ (loopOrder (s.conns c).nloop s.threads).flatMap (s.tasks i) := by
      rw [← Server.scan_tasks env s c [] ((loopOrder (s.conns c).nloop s.threads).flatMap (s.tasks i))]
      exact List.mem_append_left _ (List.mem_map_of_mem entry)
    obtain ⟨j, isLoop, inDeque⟩ := List.mem_flatMap.mp inTasks
    obtain ⟨below, queue, found⟩ := inside j isLoop
    have kept := sweepable.kept (i, j) (Server.mem_dequesOf.mpr ⟨Server.visited_inside found, below⟩)
    rw [Server.entriesAt, found] at kept
    rw [Server.tasks_of_queue (Server.visited_queue found)] at inDeque
    exact kept x (List.mem_append_right _ (List.mem_filterMap.mpr ⟨message, inDeque, isClient⟩))

end Both

/-- The task at which the scan stands depends on the ids generated on the way. -/
theorem given_made {env : Env} {c : ConnId} {i : Nat} {tasks : List Message} {u : Server} {message : Message}
    (passed : Server.Passed s i (s.scan env c [] tasks) u) (given : (s.scan env c [] tasks).given = some message) :
    u.asTask env c message =
      { s with generated := s.generated + (s.scan env c [] tasks).made }.asTask env c message := by
  obtain ⟨front, split, isGiven⟩ := Server.scan_given given
  have never := (Server.fate_given isGiven).2
  have refused : (s.scan env c [] tasks).refused = front.refused := by
    rw [split, Scan.refused_append]
    exact List.append_nil _
  unfold Server.asTask
  cases client : message.conn with
  | none => rfl
  | some d =>
      have conn : u.conns d = s.conns d := passed.kept d (by rw [refused]; exact (never d client).1)
      have waits : ∀ id, u.waiting id = s.waiting id := fun id => by
        rw [Server.waiting, passed.waitResponse]
        rfl
      simp only [conn, (passed.worker c).2.1, passed.generated, waits]
      rfl

theorem stood_given {c : ConnId} {i j : Nat} {loops : List Nat} {scan : Scan} {last : Option Nat} {t u : Server}
    {place : Option (Nat × Nat)} {message : Message} (scanned : SlotScanned s c i loops [] scan last t u place)
    (stands : stood u i place = some (j, some message)) : scan.given = some message := by
  rw [scanned.stood] at stands
  obtain ⟨_, _, same⟩ := Option.bind_eq_some_iff.mp stands
  obtain ⟨_, isGiven, same⟩ := Option.map_eq_some_iff.mp same
  cases same
  exact isGiven

/-- What is written to a worker at whose place the scan stands. -/
theorem stood_served {env : Env} {c : ConnId} {i j : Nat} {loops : List Nat} {tasks : List Message}
    {last : Option Nat} {u : Server} {place : Option (Nat × Nat)} {message : Message}
    (ran : (findMessageIn env c i (loopOrder (s.conns c).nloop s.threads)).outcome Action.apply s =
      .returned u place)
    (scanned : SlotScanned s c i loops [] (s.scan env c [] tasks) last s u place)
    (stands : stood u i place = some (j, some message)) (opened : (s.conns c).closed = false)
    (whole : message.conn = none → message.buf ≠ none) (name : Bytes) (ends : Bool) :
    ∃ task t result, u.asTask env c message = some task ∧
      (serve env name c i ends).outcome Action.apply s = .returned t result ∧ Wrote u c task t := by
  have given := stood_given scanned stands
  obtain ⟨⟨l, p⟩, rfl, same⟩ := Option.map_eq_some_iff.mp stands
  have here : u.messageAt i l p = some message := (Prod.mk.inj same).2
  obtain ⟨task, taken⟩ := given_whole scanned.passed given whole
  have gives := (give_returned_iff ends here (given_asTask scanned.passed given).2).mpr
    ⟨by rw [(scanned.passed.worker c).2.2.2.1]; exact opened, whole⟩
  obtain ⟨v, result, -, gave, -⟩ := gives
  have live : (u.queue i l).isSome = true := by
    rw [Server.messageAt] at here
    obtain ⟨queue, held, -⟩ := Option.bind_eq_some_iff.mp here
    rw [held]
    rfl
  obtain ⟨t, returned, wrote⟩ := serve_gives ran live here taken gave
  exact ⟨task, t, result, taken, returned, wrote⟩

/-- A pass is invisible to dispatch.  Where it returns, the search of
`client_request` ends with the same worker before it and behind it, or with none
both times.  So does the scan of `_add_worker`, with the same task and the same
answers on the way; and an open worker is written this task. -/
theorem dispatch_ignores_pass (met : Met anything s) (sweepable : s.Sweepable) {i : Nat} {line : QueueLine}
    (live : s.line i = some line) (free : line.locked = false) {c : ConnId} (known : c < s.accepted) :
    ∃ t, cleanDeadTasks.outcome Action.apply s = .returned t () ∧
      (∀ required, ∃ u v before behind,
        (findWorkerIn i required (loopOrder (s.conns c).nloop s.threads)).outcome Action.apply s = .returned u before ∧
        (findWorkerIn i required (loopOrder (s.conns c).nloop s.threads)).outcome Action.apply t = .returned v behind ∧
        picked u i before = picked v i behind) ∧
      ∀ env, ∃ u v before behind,
        (findMessageIn env c i (loopOrder (s.conns c).nloop s.threads)).outcome Action.apply s = .returned u before ∧
        (findMessageIn env c i (loopOrder (s.conns c).nloop s.threads)).outcome Action.apply t = .returned v behind ∧
        stood u i before = stood v i behind ∧ u.log = v.log ∧
        ∀ j message, stood u i before = some (j, some message) → (s.conns c).closed = false →
          (message.conn = none → message.buf ≠ none) → ∀ name last, ∃ task u' v' result result',
            (serve env name c i last).outcome Action.apply s = .returned u' result ∧ Wrote u c task u' ∧
            (serve env name c i last).outcome Action.apply t = .returned v' result' ∧ Wrote v c task v' := by
  have inside : Covered s i (s.conns c).nloop := by
    intro j member
    obtain ⟨below, held⟩ := deques_met met live known member
    obtain ⟨queue, isQueue⟩ := Option.isSome_iff_exists.mp held
    refine ⟨below, queue, ?_⟩
    rw [Server.queue, live, Option.bind_some] at isQueue
    simp only [Server.visited, live, free, Bool.false_eq_true, if_false]
    exact isQueue
  have threads := sweep_threads sweepable
  have nloop : (s.sweep.conns c).nloop = (s.conns c).nloop := by rw [sweep_same sweepable c]
  have again := (Server.sweep_again sweepable).1
  have insideNow : Covered s.sweep i (s.sweep.conns c).nloop := by
    rw [nloop]
    exact covered_sweep sweepable inside
  refine ⟨s.sweep, cleanDeadTasks_returned.mpr ⟨sweepable, rfl⟩, fun required => ?_, fun env => ?_⟩
  · obtain ⟨u, before, ran, pick⟩ := search_picks required sweepable inside
    obtain ⟨v, behind, ranNow, pickNow⟩ := search_picks required again (covered_sweep sweepable inside)
    rw [threads] at ranNow pickNow
    refine ⟨u, v, before, behind, ran, ranNow, ?_⟩
    rw [pick, pickNow, sweep_pick sweepable inside]
  · obtain ⟨u, before, ran, scanned⟩ := search_scans sweepable inside
    obtain ⟨v, behind, ranNow, scannedNow⟩ := search_scans again insideNow
    have tasks : (loopOrder (s.conns c).nloop s.threads).flatMap (s.sweep.tasks i) =
        ((loopOrder (s.conns c).nloop s.threads).flatMap (s.tasks i)).filter s.alive := by
      rw [List.filter_flatMap]
      exact List.flatMap_congr fun j member => sweep_tasks sweepable inside member
    obtain ⟨given, refused, made⟩ := sweep_scan sweepable env (c := c)
      ((loopOrder (s.conns c).nloop s.threads).flatMap (s.tasks i)) [] [] rfl rfl
    have stops := sweep_stop sweepable env (c := c) inside (List.Subset.refl _) [] [] rfl rfl
    have same : stood u i before = stood v i behind := by
      rw [scanned.stood, scannedNow.stood, nloop, threads, stops, tasks, given]
    have served := fun j message (stands : stood u i before = some (j, some message)) opened whole name last => And.intro
      (stood_served ran scanned (j := j) stands opened whole name last)
      (stood_served ranNow scannedNow (same ▸ stands) (by rw [sweep_same sweepable c]; exact opened) whole name last)
    rw [nloop, threads] at ranNow
    refine ⟨u, v, before, behind, ran, ranNow, same, ?_, fun j message stands opened whole name last => ?_⟩
    · have answers : ∀ refused, s.sweep.answers refused = s.answers refused := fun refused =>
        List.map_congr_left fun one _ => by rw [sweep_same sweepable one.1]
      have log : s.sweep.log = s.log := by rw [(Server.sweep_swept sweepable).confined.rest]
      rw [scanned.passed.log, scannedNow.passed.log, nloop, threads, tasks, List.nil_append, List.nil_append, refused,
        answers, log]
    · obtain ⟨⟨task, u', result, taken, returned, wrote⟩, task', v', result', taken', returned', wrote'⟩ :=
        served j message stands opened whole name last
      have isTask : task' = task := by
        have equal : v.asTask env c message = u.asTask env c message := by
          have rest := (Server.sweep_swept sweepable).confined.rest
          have generated : s.sweep.generated = s.generated := by rw [rest]
          have waits : s.sweep.waitResponse = s.waitResponse := by rw [rest]
          have http : ∀ x, (s.sweep.conns x).http = (s.conns x).http := fun x => by rw [sweep_same sweepable x]
          have noid : (s.sweep.conns c).noid = (s.conns c).noid := by rw [sweep_same sweepable c]
          have isGiven := stood_given scanned stands
          rw [given_made scanned.passed isGiven, given_made scannedNow.passed (stood_given scannedNow (same ▸ stands)),
            nloop, threads, tasks, made, generated]
          simp only [Server.asTask, Server.waiting, http, noid, waits]
          rfl
        rw [taken, taken', Option.some.injEq] at equal
        exact equal
      subst isTask
      exact ⟨task', u', v', result, result', returned, wrote, returned', wrote'⟩

/-- Connection 0 waits in two queues and is given a task in the second one, so
that its entry in the first one, in front of connection 1, is stale.  Two tasks
stand there for the worker `w`, which is connection 2; the client of the first one
has hung up. -/
def leftBehind : List Input :=
  [.accept 0 ⟨false, false, false⟩, .accept 0 ⟨false, false, false⟩, .accept 0 ⟨false, false, false⟩,
    .accept 0 ⟨false, false, false⟩, .accept 0 ⟨false, false, false⟩, .accept 0 ⟨false, false, false⟩,
    .recv 0 (ascii "GET /a,b HTTP/1.1\r\nType: get\r\n\r\n") atRest,
    .recv 1 (ascii "GET /a HTTP/1.1\r\nType: get\r\n\r\n") atRest,
    .recv 3 (ascii "POST /b HTTP/1.1\r\nType: async\r\n\r\n") atRest,
    .recv 4 (ascii "GET /a HTTP/1.1\r\nId: 7\r\nWorker-ID: w\r\n\r\n") atRest,
    .recv 5 (ascii "GET /a HTTP/1.1\r\nId: 8\r\nWorker-ID: w\r\n\r\n") atRest,
    .recv 2 (ascii "GET /echo HTTP/1.1\r\nSet-ID: w\r\n\r\n") atRest, .hangup 4]

/-- The task for the worker `w`. -/
def boundCall : Message := { Message.empty with requiredWorker := ascii "w", conn := some 5 }

def leavesStale (s : Server) : Bool :=
  decide s.Sweepable && decide (s.stale = [0, 4]) && decide (s.workersIn 0 0 = [0, 1]) &&
    decide (loopOrder (s.conns 2).nloop s.threads = [0]) && decide (2 < s.accepted) && !(s.conns 2).closed &&
    decide ((s.line 0).map QueueLine.locked = some false) &&
    match (findWorkerIn 0 [] [0]).outcome Action.apply s, (findMessageIn atRest 2 0 [0]).outcome Action.apply s with
    | .returned u worker, .returned v task =>
        decide (picked u 0 worker = some (0, some 1) ∧ stood v 0 task = some (0, some boundCall))
    | _, _ => false

theorem dispatch_ignores_pass_stale :
    ∃ s t, s.workersIn 0 0 = [0, 1] ∧ s.stale = [0, 4] ∧ cleanDeadTasks.outcome Action.apply s = .returned t () ∧
      (∃ u behind, (findWorkerIn 0 [] [0]).outcome Action.apply t = .returned u behind ∧
        picked u 0 behind = some (0, some 1)) ∧
      ∃ u v behind task u' v' result result',
        (findMessageIn atRest 2 0 [0]).outcome Action.apply t = .returned v behind ∧
        stood v 0 behind = some (0, some boundCall) ∧
        (serve atRest (ascii "a") 2 0 true).outcome Action.apply s = .returned u' result ∧ Wrote u 2 task u' ∧
        (serve atRest (ascii "a") 2 0 true).outcome Action.apply t = .returned v' result' ∧ Wrote v 2 task v' := by
  have ran : (afterAll leftBehind (Server.new 1 false [] 0)).map leavesStale = some true := by
    decide +kernel
  obtain ⟨s, sEq, test⟩ := Option.map_eq_some_iff.mp ran
  simp only [leavesStale, Bool.and_eq_true, decide_eq_true_eq, Bool.not_eq_true'] at test
  obtain ⟨⟨⟨⟨⟨⟨⟨sweepable, stale⟩, workers⟩, loops⟩, known⟩, opened⟩, mutex⟩, found⟩ := test
  obtain ⟨line, live, free⟩ := Option.map_eq_some_iff.mp mutex
  obtain ⟨t, returned, searches, scans⟩ := dispatch_ignores_pass (.between (reachable_afterAll (.new 1 false [] 0) sEq))
    sweepable live free known
  rw [loops] at searches scans
  obtain ⟨u, v, before, behind, searched, searchedNow, picks⟩ := searches []
  obtain ⟨u', v', before', behind', scanned, scannedNow, stands, -, served⟩ := scans atRest
  rw [searched, scanned] at found
  obtain ⟨isWorker, isTask⟩ := of_decide_eq_true found
  obtain ⟨task, x, y, result, result', gave, wrote, gaveNow, wroteNow⟩ :=
    served 0 boundCall isTask opened (fun absent => by cases absent) (ascii "a") true
  exact ⟨s, t, workers, stale, returned, ⟨v, behind, searchedNow, picks ▸ isWorker⟩, u', v', behind', task, x, y,
    result, result', scannedNow, stands ▸ isTask, gave, wrote, gaveNow, wroteNow⟩

end Routine

end Ijson
