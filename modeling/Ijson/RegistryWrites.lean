/-
What each action writes to the queues.

The registry holds the names and, in its slots, the deques.  `writes` lists the
registries an action may leave, read off the statements that touch them; what
is sent, counted or linked on the way does not matter for it.
-/

import Ijson.Effects

namespace Ijson

/-- The task of a synchronous request. -/
def Server.syncTask (s : Server) (c : ConnId) : Message :=
  { Message.empty with
    priority := (s.conns c).http.priority
    requiredWorker := (s.conns c).http.requiredWorker
    conn := some c }

/-- The task of an asynchronous one. -/
def Server.asyncTask (s : Server) (c : ConnId) (name : Bytes) : Message :=
  { Message.empty with
    priority := (s.conns c).http.priority
    requiredWorker := (s.conns c).http.requiredWorker
    buf := some (s.conns c).http.body
    name := name
    ticket := s.tickets }

/-- The registries an action may leave behind.  The rollback of a claim can
throw before it has put the worker back. -/
def Action.writes (action : Action) (s : Server) : List Registry :=
  match action with
  | .resolve _ key | .create key =>
      match s.registry.getQueue s.threads key true with
      | .returned registry _ => [registry]
      | .thrown registry _ => [registry]
      | .fault => []
  | .describe i info =>
      match s.line i with
      | none => []
      | some line =>
          let text := Json.unescape info
          [(s.setLine i { line with info := if text.2.isNone then text.1 else [] }).registry]
  | .visit i now =>
      match s.line i with
      | none => []
      | some line => [(s.setLine i { line with lastWorker := now }).registry]
  | .lock i on =>
      match s.line i with
      | none => []
      | some line => [(s.setLine i { line with locked := on }).registry]
  | .leaveList c =>
      match (s.conns c).workerItem with
      | none => []
      | some i =>
          match s.line i with
          | none => []
          | some line => [(s.setLine i { line with workers := line.workers.erase c }).registry]
  | .subscribe c i _ =>
      match s.line i with
      | none => []
      | some line => [(s.setLine i { line with workers := c :: line.workers }).registry]
  | .dropMessage i j p | .refuseNoId i j p | .refuseCollision i j p _ | .giveAsync _ i j p _
  | .giveNoid _ i j p | .giveId _ i j p _ | .discard i j p => [(s.eraseMessage i j p).registry]
  | .register c i =>
      match s.queue i (s.conns c).nloop with
      | none => []
      | some queue =>
          [(s.setQueue i (s.conns c).nloop { queue with workers := queue.workers ++ [c] }).registry]
  | .dropEntry i j p | .handAsync _ i j p _ | .handNoid _ i j p _ | .handId _ i j p _ _ =>
      [(s.eraseWorker i j p).registry]
  | .undoNoId _ i j p | .undoCollision _ i j p _ =>
      let erased := s.eraseWorker i j p
      erased.registry ::
        match s.workerAt i j p with
        | none => []
        | some w =>
            match erased.queue i (s.conns w).nloop with
            | none => []
            | some queue =>
                [(erased.setQueue i (s.conns w).nloop
                  { queue with workers := w :: queue.workers }).registry]
  | .enqueueSync c i _ =>
      match s.queue i (s.conns c).nloop with
      | none => []
      | some queue => [(s.setQueue i (s.conns c).nloop
          { queue with clients := insertMessage (s.syncTask c) queue.clients }).registry]
  | .enqueueAsync c i name =>
      match s.queue i (s.conns c).nloop with
      | none => []
      | some queue => [(s.setQueue i (s.conns c).nloop
          { queue with clients := insertMessage (s.asyncTask c name) queue.clients }).registry]
  | .unhook key =>
      match s.registry.removeQueue key with
      | none => []
      | some (registry, _) => [registry]
  | _ => [s.registry]

section Members

variable {s : Server} {registry : Registry}

theorem mem_lookedUp {key : Bytes}
    (member : registry ∈ match s.registry.getQueue s.threads key true with
      | .returned registry _ => [registry]
      | .thrown registry _ => [registry]
      | .fault => []) :
    (∃ slot, s.registry.getQueue s.threads key true = .returned registry slot) ∨
      ∃ error, s.registry.getQueue s.threads key true = .thrown registry error := by
  cases result : s.registry.getQueue s.threads key true with
  | returned after slot =>
      rw [result] at member
      rw [List.mem_singleton.mp member]
      exact Or.inl ⟨slot, rfl⟩
  | thrown after error =>
      rw [result] at member
      rw [List.mem_singleton.mp member]
      exact Or.inr ⟨error, rfl⟩
  | fault =>
      rw [result] at member
      cases member

theorem mem_changedLine {i : Nat} {change : QueueLine → QueueLine}
    (member : registry ∈ match s.line i with
      | none => []
      | some line => [(s.setLine i (change line)).registry]) :
    ∃ line, s.line i = some line ∧ registry = (s.setLine i (change line)).registry := by
  cases live : s.line i with
  | none =>
      rw [live] at member
      cases member
  | some line =>
      rw [live] at member
      exact ⟨line, rfl, List.mem_singleton.mp member⟩

theorem mem_changedQueue {i j : Nat} {change : Queue → Queue}
    (member : registry ∈ match s.queue i j with
      | none => []
      | some queue => [(s.setQueue i j (change queue)).registry]) :
    ∃ queue, s.queue i j = some queue ∧ registry = (s.setQueue i j (change queue)).registry := by
  cases live : s.queue i j with
  | none =>
      rw [live] at member
      cases member
  | some queue =>
      rw [live] at member
      exact ⟨queue, rfl, List.mem_singleton.mp member⟩

/-- The rollback has taken the entry out, and may have put the worker back. -/
theorem mem_rolledBack {i j p : Nat}
    (member : registry ∈ (s.eraseWorker i j p).registry ::
      match s.workerAt i j p with
      | none => []
      | some w =>
          match (s.eraseWorker i j p).queue i (s.conns w).nloop with
          | none => []
          | some queue =>
              [((s.eraseWorker i j p).setQueue i (s.conns w).nloop
                { queue with workers := w :: queue.workers }).registry]) :
    registry = (s.eraseWorker i j p).registry ∨ ∃ w queue, s.workerAt i j p = some w ∧
      (s.eraseWorker i j p).queue i (s.conns w).nloop = some queue ∧
      registry = ((s.eraseWorker i j p).setQueue i (s.conns w).nloop
        { queue with workers := w :: queue.workers }).registry := by
  rcases List.mem_cons.mp member with same | put
  · exact Or.inl same
  · cases found : s.workerAt i j p with
    | none =>
        rw [found] at put
        cases put
    | some w =>
        rw [found] at put
        cases live : (s.eraseWorker i j p).queue i (s.conns w).nloop with
        | none =>
            simp only [live] at put
            cases put
        | some queue =>
            simp only [live] at put
            exact Or.inr ⟨w, queue, rfl, live, List.mem_singleton.mp put⟩

end Members

namespace Server

/-- The queues are left as they are, or as `registry` says. -/
abbrev Writes (registry : Registry) (result : Result) : Prop :=
  result.Ends (fun _ t => t.registry = registry) fun _ t => t.registry = registry

section

variable {s t : Server} {registry : Registry} {result : Result} {next : Server → Result}

theorem Writes.andThen (writes : Writes registry result)
    (later : ∀ t, t.registry = registry → Writes registry (next t)) :
    Writes registry (result.andThen next) := by
  rw [Writes, Ends_andThen]
  exact Program.Ends.mono writes (fun _ t same => later t same) fun _ _ same => same

theorem Writes.noexcept (writes : Writes registry result) : Writes registry result.noexcept := by
  cases result with
  | returned after value => exact writes
  | thrown after error => trivial
  | fault => trivial

theorem unlink_writes (same : t.registry = registry) (c : ConnId) : Writes registry (t.unlink c) :=
  unlink_ends (fun _ => same) fun _ => same

theorem send_writes (same : t.registry = registry) (c : ConnId) (response : Response) :
    Writes registry (t.send c response) :=
  send_ends (fun _ => same) fun _ => same

@[simp] theorem link_registry (c : ConnId) : (s.link c).registry = s.registry := rfl

@[simp] theorem unlinked_registry (c : ConnId) : (s.unlinked c).registry = s.registry := rfl

@[simp] theorem takeMessage_registry (i j p : Nat) (message : Message) :
    (s.takeMessage i j p message).registry = (s.eraseMessage i j p).registry := rfl

theorem unlinkDirects_writes (same : t.registry = registry) (messages : List Nat) :
    Writes registry (t.unlinkDirects messages) := by
  induction messages generalizing t with
  | nil => exact same
  | cons d rest ih =>
      refine Writes.andThen ?_ fun u later => ih later
      unfold unlinkDirect
      simp only
      split
      · trivial
      · exact same

theorem deleteMessage_writes (same : t.registry = registry) (message : Message) :
    Writes registry (t.deleteMessage message) := by
  unfold deleteMessage
  cases message.conn with
  | none => exact same
  | some d => exact (unlink_writes same d).noexcept

theorem releaseClient_writes (same : t.registry = registry) (c : ConnId) :
    Writes registry (t.releaseClient c) := by
  unfold releaseClient
  cases (t.conns c).client with
  | none => trivial
  | some d => exact (unlink_writes same d).andThen fun u later => later

theorem reapList_writes (list : List ConnId) (same : t.registry = registry) :
    Writes registry (t.reapList list) := by
  induction list generalizing t with
  | nil => exact same
  | cons c rest ih =>
      unfold reapList
      split
      · trivial
      · split
        · exact ih same
        · exact ih same

theorem takeId_registry {d : ConnId} {random : Nat} {id : Bytes}
    (taken : s.takeId d random = some (t, id)) : t.registry = s.registry := by
  unfold takeId at taken
  cases idEq : (s.conns d).http.requestId s.generated random with
  | error error =>
      rw [idEq] at taken
      cases taken
  | ok found =>
      obtain ⟨http, generated⟩ := found
      rw [idEq] at taken
      cases taken
      rfl

theorem takeId_nloop {d c : ConnId} {random : Nat} {id : Bytes}
    (taken : s.takeId d random = some (t, id)) : (t.conns c).nloop = (s.conns c).nloop := by
  unfold takeId at taken
  cases idEq : (s.conns d).http.requestId s.generated random with
  | error error =>
      rw [idEq] at taken
      cases taken
  | ok found =>
      obtain ⟨http, generated⟩ := found
      rw [idEq] at taken
      cases taken
      rw [modify_conns]
      by_cases same : c = d
      · rw [if_pos same, same]
      · rw [if_neg same]

theorem setQueue_conns (s : Server) (i j : Nat) (queue : Queue) : (s.setQueue i j queue).conns = s.conns := by
  unfold setQueue
  cases s.line i <;> rfl

theorem eraseWorker_conns (i j p : Nat) : (s.eraseWorker i j p).conns = s.conns := by
  unfold eraseWorker
  cases s.queue i j with
  | none => rfl
  | some queue => exact setQueue_conns s i j _

theorem takeMessage_conns (s : Server) (i j p : Nat) (message : Message) :
    (s.takeMessage i j p message).conns = s.conns := by
  unfold takeMessage eraseMessage
  cases s.queue i j with
  | none => rfl
  | some queue => exact setQueue_conns s i j _

theorem dropEntry_writes (i j p : Nat) :
    Writes (s.eraseWorker i j p).registry (s.dropEntry i j p) := by
  unfold dropEntry
  cases s.workerAt i j p with
  | none => trivial
  | some w => exact unlink_writes rfl w

end

variable (s : Server)

theorem begin_writes (c : ConnId) (taken line : Bytes) : Writes s.registry (s.begin c taken line) := by
  unfold begin
  simp only
  refine Writes.andThen ?_ fun t same => same
  split
  · split <;> rfl
  · split
    · split <;> rfl
    · refine Writes.andThen ?_ fun t same => same
      split
      · rfl
      · exact unlink_writes rfl _

theorem flush_writes (c : ConnId) (sent : Option Nat) : Writes s.registry (s.flush c sent) := by
  unfold flush
  refine Writes.andThen ?_ fun t same => same
  split
  · unfold popDirect
    split
    · rfl
    · refine Writes.andThen ?_ fun t same => ?_
      · unfold unlinkDirect
        simp only
        split
        · trivial
        · rfl
      · cases sent with
        | none => exact same
        | some sent => exact same
  · cases sent with
    | none => rfl
    | some sent => rfl

theorem postNoid_writes (c : ConnId) : Writes s.registry (s.postNoid c) := by
  unfold postNoid
  simp only
  split
  · rfl
  · refine (unlink_writes (by rfl) _).andThen fun t same => ?_
    split
    · exact same
    · exact (send_writes (by exact same) _ _).andThen fun u later => later

theorem settle_writes (id : Bytes) (worker : Option ConnId) :
    Writes s.registry (s.settle id worker) := by
  unfold settle
  split
  · trivial
  · refine (unlink_writes (by rfl) _).andThen fun t same => ?_
    split
    · exact same
    · cases worker with
      | none => exact (send_writes same _ _).andThen fun u later => later
      | some c => exact (send_writes same _ _).andThen fun u later => later

theorem closeMessage_writes (j : Nat) : Writes s.registry (s.closeMessage j) := by
  unfold closeMessage
  split
  · trivial
  · split
    · trivial
    · split
      · trivial
      · simp only
        split
        · rfl
        · split
          · rfl
          · exact send_writes rfl _ _

theorem closeWorker_writes (j : Nat) : Writes s.registry (s.closeWorker j) := by
  unfold closeWorker
  split
  · trivial
  · split
    · trivial
    · split
      · trivial
      · refine (unlink_writes (by rfl) _).andThen fun t same => ?_
        split
        · exact same
        · exact send_writes same _ _

theorem popItem_writes : Writes s.registry s.popItem := by
  unfold popItem
  split
  · trivial
  · split
    · trivial
    · exact (unlink_writes (by rfl) _).noexcept.andThen fun t same => same

theorem expire_writes (i j p now : Nat) : Writes s.registry (s.expire i j p now) := by
  unfold expire
  split
  · trivial
  · exact (send_writes (by rfl) _ _).andThen fun t same => same

theorem failNoid_writes (c : ConnId) : Writes s.registry (s.failNoid c) := by
  unfold failNoid
  split
  · rfl
  · refine Writes.andThen ?_ fun t same => releaseClient_writes (by exact same) c
    split
    · rfl
    · exact send_writes rfl _ _

theorem refuseNoId_writes (i j p : Nat) :
    Writes (s.eraseMessage i j p).registry (s.refuseNoId i j p) := by
  unfold refuseNoId
  split
  · trivial
  · split
    · trivial
    · exact send_writes rfl _ _

theorem refuseCollision_writes (i j p random : Nat) :
    Writes (s.eraseMessage i j p).registry (s.refuseCollision i j p random) := by
  unfold refuseCollision
  split
  · trivial
  · split
    · trivial
    · split
      · trivial
      · rename_i takenEq
        exact (send_writes (takeId_registry takenEq) _ _).andThen fun u later => later

theorem giveAsync_writes (c : ConnId) (i j p : Nat) :
    Writes (s.eraseMessage i j p).registry (s.giveAsync c i j p) := by
  unfold giveAsync
  split
  · trivial
  · split
    · exact (send_writes rfl _ _).andThen fun t same => same
    · trivial

theorem giveNoid_writes (c : ConnId) (i j p : Nat) :
    Writes (s.eraseMessage i j p).registry (s.giveNoid c i j p) := by
  unfold giveNoid
  split
  · trivial
  · split
    · trivial
    · simp only
      refine (send_writes ?_ _ _).andThen fun t same => by exact same
      split
      · simp only [modify_registry, link_registry, takeMessage_registry]
      · simp only [modify_registry, takeMessage_registry]

theorem giveId_writes (c : ConnId) (i j p random : Nat) :
    Writes (s.eraseMessage i j p).registry (s.giveId c i j p random) := by
  unfold giveId
  split
  · trivial
  · rename_i message _
    split
    · trivial
    · simp only
      split
      · trivial
      · rename_i u _ takenEq
        have same : u.registry = (s.eraseMessage i j p).registry := by
          rw [takeId_registry takenEq, modify_registry, takeMessage_registry]
        refine (send_writes ?_ _ _).andThen fun t later => by exact later
        split
        · exact same
        · exact same

theorem handAsync_writes (c : ConnId) (i j p : Nat) (name : Bytes) :
    Writes (s.eraseWorker i j p).registry (s.handAsync c i j p name) := by
  unfold handAsync
  cases s.workerAt i j p with
  | none => trivial
  | some w =>
      simp -zeta only
      extract_lets body queue
      refine Writes.andThen (dropEntry_writes i j p) fun t same => ?_
      exact Writes.andThen (send_writes (by exact same) _ _) fun u later => later

theorem handNoid_writes (c : ConnId) (i j p : Nat) (name : Bytes) :
    Writes (s.eraseWorker i j p).registry (s.handNoid c i j p name) := by
  unfold handNoid
  cases s.workerAt i j p with
  | none => trivial
  | some w =>
      simp -zeta only
      extract_lets queue
      refine Writes.andThen (dropEntry_writes i j p) fun t same => ?_
      extract_lets held waiting taken
      exact Writes.andThen (send_writes (by exact same) _ _) fun u later => later

theorem handId_writes (c : ConnId) (i j p : Nat) (name : Bytes) (random : Nat) :
    Writes (s.eraseWorker i j p).registry (s.handId c i j p name random) := by
  unfold handId
  cases s.workerAt i j p with
  | none => trivial
  | some w =>
      simp -zeta only
      extract_lets queue
      refine Writes.andThen (dropEntry_writes i j p) fun t same => ?_
      cases takenEq : t.takeId c random with
      | none => trivial
      | some taken =>
          obtain ⟨u, id⟩ := taken
          have kept := (takeId_registry takenEq).trans same
          simp -zeta only
          extract_lets held
          have heldSame : held.registry = (s.eraseWorker i j p).registry := by
            unfold held
            split
            · exact kept
            · exact kept
          refine Writes.andThen (send_writes heldSame _ _) fun v later => ?_
          simp only [Writes, Ends_returned]
          exact later

/-! The deques are read off the registry only. -/

section Congruence

variable {s} {t : Server} (same : t.registry = s.registry)

include same

theorem line_congr (i : Nat) : t.line i = s.line i := by
  unfold line
  rw [same]

theorem queue_congr (i j : Nat) : t.queue i j = s.queue i j := by
  unfold queue
  rw [line_congr same]

theorem workerAt_congr (i j p : Nat) : t.workerAt i j p = s.workerAt i j p := by
  unfold workerAt
  rw [queue_congr same]

theorem setQueue_congr (i j : Nat) (queue : Queue) :
    (t.setQueue i j queue).registry = (s.setQueue i j queue).registry := by
  unfold setQueue
  rw [line_congr same]
  cases s.line i with
  | none => exact same
  | some line =>
      simp only [setLine]
      rw [same]

theorem eraseWorker_congr (i j p : Nat) :
    (t.eraseWorker i j p).registry = (s.eraseWorker i j p).registry := by
  unfold eraseWorker
  rw [queue_congr same]
  cases s.queue i j with
  | none => exact same
  | some queue => exact setQueue_congr same i j _

end Congruence

/-- What is left after a rollback, complete or not. -/
theorem undo_writes {t : Server} (same : t.registry = s.registry)
    (nloop : ∀ c, (t.conns c).nloop = (s.conns c).nloop) (c : ConnId) (i j p : Nat)
    (refusal : Response) (action : Action)
    (writes : action.writes s = (s.eraseWorker i j p).registry ::
      match s.workerAt i j p with
      | none => []
      | some w =>
          match (s.eraseWorker i j p).queue i (s.conns w).nloop with
          | none => []
          | some queue =>
              [((s.eraseWorker i j p).setQueue i (s.conns w).nloop
                { queue with workers := w :: queue.workers }).registry]) :
    (t.undo c i j p refusal).Ends (fun _ u => u.registry ∈ action.writes s)
      fun _ u => u.registry ∈ action.writes s := by
  have erased := eraseWorker_congr same i j p
  rw [writes]
  unfold undo dropEntry
  rw [workerAt_congr same]
  cases s.workerAt i j p with
  | none => trivial
  | some w =>
      simp only [Ends_andThen]
      apply unlink_ends
      · intro positive
        have after : ((((t.eraseWorker i j p).unlinked w).link w).modify w fun conn =>
            { conn with status := .workerWaitJob }).registry = (s.eraseWorker i j p).registry := by
          rw [modify_registry, link_registry, unlinked_registry, erased]
        have own : (((((t.eraseWorker i j p).unlinked w).link w).modify w fun conn =>
            { conn with status := .workerWaitJob }).conns w).nloop = (s.conns w).nloop := by
          rw [modify_self, link_conns, unlinked_conns, eraseWorker_conns]
          exact nloop w
        rw [own, queue_congr after]
        cases (s.eraseWorker i j p).queue i (s.conns w).nloop with
        | none => trivial
        | some queue =>
            have put := setQueue_congr after i (s.conns w).nloop { queue with workers := w :: queue.workers }
            have stands := List.mem_cons_of_mem (s.eraseWorker i j p).registry
              (List.mem_singleton.mpr put)
            simp only [Ends_andThen, Ends_returned]
            exact send_ends (fun _ => stands) fun _ => stands
      · intro missing
        exact erased ▸ List.mem_cons_self

theorem enqueue_writes (c : ConnId) (i : Nat) (message : Message) {next : Server → Result}
    (later : ∀ t registry, t.registry = registry → Writes registry (next t)) :
    ((s.enqueue c i message).andThen next).Ends
      (fun _ t => t.registry ∈ match s.queue i (s.conns c).nloop with
        | none => []
        | some queue => [(s.setQueue i (s.conns c).nloop
            { queue with clients := insertMessage message queue.clients }).registry])
      fun _ t => t.registry ∈ match s.queue i (s.conns c).nloop with
        | none => []
        | some queue => [(s.setQueue i (s.conns c).nloop
            { queue with clients := insertMessage message queue.clients }).registry] := by
  unfold enqueue
  simp only [Ends_andThen]
  cases s.queue i (s.conns c).nloop with
  | none => trivial
  | some queue =>
      simp only [Ends_returned]
      exact Program.Ends.mono (later _ _ rfl) (fun _ _ same => List.mem_singleton.mpr same)
        fun _ _ same => List.mem_singleton.mpr same

theorem apply_writes (action : Action) :
    (action.apply s).Ends (fun _ t => t.registry ∈ action.writes s)
      fun _ t => t.registry ∈ action.writes s := by
  have single : ∀ {registry : Registry} {result : Result}, Writes registry result →
      result.Ends (fun _ t => t.registry ∈ [registry]) fun _ t => t.registry ∈ [registry] :=
    fun writes => Program.Ends.mono writes (fun _ _ same => List.mem_singleton.mpr same)
      fun _ _ same => List.mem_singleton.mpr same
  cases action with
  | accept => exact List.mem_singleton_self _
  | receive => exact List.mem_singleton_self _
  | count => exact List.mem_singleton_self _
  | edit => exact List.mem_singleton_self _
  | begin c taken line => exact single (begin_writes s c taken line)
  | endHead => exact List.mem_singleton_self _
  | complete => exact List.mem_singleton_self _
  | rewind => exact List.mem_singleton_self _
  | shut => exact List.mem_singleton_self _
  | retire c => exact single ((unlink_writes rfl c).andThen fun t same => same)
  | reap loop => exact single (reapList_writes _ rfl)
  | caught => exact List.mem_singleton_self _
  | died => exact List.mem_singleton_self _
  | flush c sent => exact single (flush_writes s c sent)
  | refuseHeader c => exact single (send_writes rfl c _)
  | respond c response => exact single ((send_writes rfl c response).andThen fun t same => same)
  | conclude c response => exact single ((send_writes rfl c response).andThen fun t same => same)
  | postNoid c => exact single (postNoid_writes s c)
  | settle id worker => exact single (settle_writes s id worker)
  | workerMode => exact List.mem_singleton_self _
  | noIdMode => exact List.mem_singleton_self _
  | failMode => exact List.mem_singleton_self _
  | beginAdd => exact List.mem_singleton_self _
  | resolve c key =>
      simp only [Action.apply, resolve, Action.writes]
      cases s.registry.getQueue s.threads key true with
      | returned registry slot =>
          cases slot with
          | none => trivial
          | some i =>
              simp only
              split
              · trivial
              · exact List.mem_singleton_self _
      | thrown registry error => exact List.mem_singleton_self _
      | fault => trivial
  | describe i info =>
      simp only [Action.apply, Action.writes]
      cases s.line i with
      | none => trivial
      | some line => exact List.mem_singleton_self _
  | visit i now =>
      simp only [Action.apply, Action.writes]
      cases s.line i with
      | none => trivial
      | some line => exact List.mem_singleton_self _
  | lock i on =>
      simp only [Action.apply, Action.writes]
      cases s.line i with
      | none => trivial
      | some line => exact List.mem_singleton_self _
  | nameConn => exact List.mem_singleton_self _
  | leaveList c =>
      simp only [Action.apply, leaveList, Action.writes]
      cases (s.conns c).workerItem with
      | none => trivial
      | some i =>
          simp only
          cases s.line i with
          | none => trivial
          | some line => exact single ((unlink_writes rfl c).noexcept.andThen fun t same => same)
  | dropDirects c => exact single (unlinkDirects_writes rfl _)
  | wake => exact List.mem_singleton_self _
  | dropMessage i j p =>
      simp only [Action.apply, Action.writes]
      cases s.messageAt i j p with
      | none => trivial
      | some message => exact List.mem_singleton_self _
  | refuseNoId i j p => exact single (refuseNoId_writes s i j p)
  | refuseCollision i j p random => exact single (refuseCollision_writes s i j p random)
  | giveAsync c i j p => exact single (giveAsync_writes s c i j p)
  | giveNoid c i j p => exact single (giveNoid_writes s c i j p)
  | giveId c i j p random => exact single (giveId_writes s c i j p random)
  | register c i =>
      simp only [Action.apply, register, Action.writes]
      cases s.queue i (s.conns c).nloop with
      | none => trivial
      | some queue => exact List.mem_singleton_self _
  | subscribe c i name =>
      simp only [Action.apply, subscribe, Action.writes]
      cases s.line i with
      | none => trivial
      | some line => exact List.mem_singleton_self _
  | finish => exact List.mem_singleton_self _
  | collect =>
      simp only [Action.apply, collect]
      cases s.gc with
      | nil => trivial
      | cons message rest => exact single (deleteMessage_writes rfl message)
  | dropEntry i j p => exact single (dropEntry_writes i j p)
  | handAsync c i j p name => exact single (handAsync_writes s c i j p name)
  | handNoid c i j p name => exact single (handNoid_writes s c i j p name)
  | handId c i j p name random => exact single (handId_writes s c i j p name random)
  | undoNoId c i j p => exact undo_writes s rfl (fun _ => rfl) c i j p _ (.undoNoId c i j p) rfl
  | undoCollision c i j p random =>
      simp only [Action.apply]
      split
      · trivial
      · rename_i takenEq
        exact undo_writes s (takeId_registry takenEq) (fun _ => takeId_nloop takenEq) c i j p _
          (.undoCollision c i j p random) rfl
  | enqueueSync c i name =>
      exact enqueue_writes s c i _ fun t registry same => same
  | enqueueAsync c i name =>
      exact enqueue_writes s c i _ fun t registry same => same
  | newDirect => exact List.mem_singleton_self _
  | publishClaim => exact List.mem_singleton_self _
  | publishPush => exact List.mem_singleton_self _
  | releaseDirect d =>
      simp only [Action.apply, unlinkDirect]
      split
      · trivial
      · exact List.mem_singleton_self _
  | create key =>
      simp only [Action.apply, Action.writes]
      cases s.registry.getQueue s.threads key true with
      | returned registry slot => exact List.mem_singleton_self _
      | thrown registry error => exact List.mem_singleton_self _
      | fault => trivial
  | unhook key =>
      simp only [Action.apply, unhook, Action.writes]
      cases s.registry.mapper.del key with
      | none => trivial
      | some deleted =>
          cases s.registry.removeQueue key with
          | none => trivial
          | some removed =>
              obtain ⟨registry, line⟩ := removed
              cases line with
              | none => exact List.mem_singleton_self _
              | some line =>
                  simp only
                  split
                  · trivial
                  · exact List.mem_singleton_self _
  | closeMessage j => exact single (closeMessage_writes s j)
  | closeWorker j => exact single (closeWorker_writes s j)
  | popItem => exact single (popItem_writes s)
  | bury => exact List.mem_singleton_self _
  | expire i j p now => exact single (expire_writes s i j p now)
  | discard i j p =>
      simp only [Action.apply, discard]
      cases s.messageAt i j p with
      | none => trivial
      | some message => exact single (deleteMessage_writes rfl message)
  | eraseOwn c => exact single (unlink_writes rfl c)
  | failNoid c => exact single (failNoid_writes s c)
  | releaseClient c => exact single (releaseClient_writes rfl c)

end Server

end Ijson
