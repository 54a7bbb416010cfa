/-
The ids in use: the counter of `generate_id` and `wait_response`.

Most actions leave both alone; taking an id advances the counter, and four
actions write `wait_response`.
-/

import Ijson.Effects

namespace Ijson

structure Ids where
  generated : Nat
  waitResponse : List (Bytes × ConnId)

/-- After a call of `generate_id`. -/
def Ids.next (n : Ids) : Ids := { n with generated := n.generated + 1 }

def Server.ids (s : Server) : Ids :=
  { generated := s.generated
    waitResponse := s.waitResponse }

namespace Server

/-- `generate_id` is not called. -/
abbrev Keeps (n : Ids) (result : Result) : Prop :=
  result.Ends (fun _ t => t.ids = n) fun _ t => t.ids = n

/-- It is called at most once. -/
abbrev Makes (n : Ids) (result : Result) : Prop :=
  result.Ends (fun _ t => t.ids = n ∨ t.ids = n.next)
    fun _ t => t.ids = n ∨ t.ids = n.next

/-- The same, whatever becomes of `wait_response`. -/
abbrev Counts (n : Ids) (result : Result) : Prop :=
  result.Ends (fun _ t => t.generated = n.generated ∨ t.generated = n.generated + 1)
    fun _ t => t.generated = n.generated ∨ t.generated = n.generated + 1

section

variable {s t : Server} {n : Ids} {result : Result} {next : Server → Result}

theorem Keeps.makes (keeps : Keeps n result) : Makes n result :=
  Program.Ends.mono keeps (fun _ _ same => Or.inl same) fun _ _ same => Or.inl same

theorem Keeps.makes_later (keeps : Keeps (n.next) result) : Makes n result :=
  Program.Ends.mono keeps (fun _ _ same => Or.inr same) fun _ _ same => Or.inr same

theorem Keeps.andThen (keeps : Keeps n result)
    (later : ∀ t, t.ids = n → Keeps n (next t)) : Keeps n (result.andThen next) := by
  rw [Keeps, Ends_andThen]
  exact Program.Ends.mono keeps (fun _ t same => later t same) fun _ _ same => same

theorem Makes.counts (makes : Makes n result) : Counts n result := by
  have counted : ∀ t : Server, t.ids = n ∨ t.ids = n.next →
      t.generated = n.generated ∨ t.generated = n.generated + 1 := by
    intro t makes
    rcases makes with same | next
    · exact Or.inl (congrArg Ids.generated same)
    · exact Or.inr (congrArg Ids.generated next)
  exact Program.Ends.mono makes (fun _ t => counted t) fun _ t => counted t

theorem Keeps.andCounts (keeps : Keeps n result)
    (later : ∀ t, t.ids = n → Counts n (next t)) : Counts n (result.andThen next) := by
  rw [Counts, Ends_andThen]
  exact Program.Ends.mono keeps (fun _ t same => later t same)
    fun _ _ same => Or.inl (congrArg Ids.generated same)

theorem Keeps.noexcept (keeps : Keeps n result) : Keeps n result.noexcept := by
  cases result with
  | returned after value => exact keeps
  | thrown after error => trivial
  | fault => trivial

theorem unlink_keeps (same : t.ids = n) (c : ConnId) : Keeps n (t.unlink c) := by
  apply unlink_ends
  · intro _
    exact same
  · intro _
    exact same

theorem send_keeps (same : t.ids = n) (c : ConnId) (response : Response) :
    Keeps n (t.send c response) := by
  apply send_ends
  · intro _
    exact same
  · intro _
    exact same

@[simp] theorem modify_ids (s : Server) (c : ConnId) (change : Conn → Conn) :
    (s.modify c change).ids = s.ids := rfl

@[simp] theorem link_ids (s : Server) (c : ConnId) : (s.link c).ids = s.ids := rfl

@[simp] theorem setQueue_ids (s : Server) (i j : Nat) (queue : Queue) :
    (s.setQueue i j queue).ids = s.ids := by
  unfold setQueue
  cases s.line i <;> rfl

@[simp] theorem eraseWorker_ids (s : Server) (i j p : Nat) :
    (s.eraseWorker i j p).ids = s.ids := by
  unfold eraseWorker
  cases s.queue i j with
  | none => rfl
  | some queue => exact s.setQueue_ids i j _

@[simp] theorem eraseMessage_ids (s : Server) (i j p : Nat) :
    (s.eraseMessage i j p).ids = s.ids := by
  unfold eraseMessage
  cases s.queue i j with
  | none => rfl
  | some queue => exact s.setQueue_ids i j _

@[simp] theorem takeMessage_ids (s : Server) (i j p : Nat) (message : Message) :
    (s.takeMessage i j p message).ids = s.ids := by
  rw [takeMessage]
  exact s.eraseMessage_ids i j p

theorem unlinkDirect_keeps (same : t.ids = n) (d : Nat) : Keeps n (t.unlinkDirect d) := by
  unfold unlinkDirect
  simp only
  split
  · trivial
  · exact same

theorem unlinkDirects_keeps (same : t.ids = n) (messages : List Nat) :
    Keeps n (t.unlinkDirects messages) := by
  induction messages generalizing t with
  | nil => exact same
  | cons d rest ih => exact (unlinkDirect_keeps same d).andThen fun u later => ih later

theorem dropEntry_keeps (same : t.ids = n) (i j p : Nat) : Keeps n (t.dropEntry i j p) := by
  unfold dropEntry
  cases t.workerAt i j p with
  | none => trivial
  | some w => exact unlink_keeps (by rw [eraseWorker_ids, same]) w

theorem deleteMessage_keeps (same : t.ids = n) (message : Message) :
    Keeps n (t.deleteMessage message) := by
  unfold deleteMessage
  cases message.conn with
  | none => exact same
  | some d => exact (unlink_keeps same d).noexcept

/-- Taking an id calls `generate_id` at most once. -/
theorem takeId_makes {d : ConnId} {random : Nat} {id : Bytes}
    (taken : s.takeId d random = some (t, id)) :
    t.ids = s.ids ∨ t.ids = s.ids.next := by
  unfold takeId at taken
  cases idEq : (s.conns d).http.requestId s.generated random with
  | error error =>
      rw [idEq] at taken
      cases taken
  | ok found =>
      obtain ⟨http, generated⟩ := found
      rw [idEq] at taken
      cases taken
      cases generated with
      | false => exact Or.inl rfl
      | true => exact Or.inr rfl

theorem takeId_then {d : ConnId} {random : Nat} {id : Bytes} (same : s.ids = n)
    (taken : s.takeId d random = some (t, id))
    (later : ∀ m, t.ids = m → Keeps m result) : Makes n result := by
  rcases takeId_makes taken with kept | made
  · exact (later n (by rw [kept, same])).makes
  · exact (later (n.next) (by rw [made, same])).makes_later

theorem takeId_counts {d : ConnId} {random : Nat} {id : Bytes} (same : s.ids = n)
    (taken : s.takeId d random = some (t, id))
    (later : ∀ m, t.ids = m → result.Ends (fun _ t => t.generated = m.generated)
      fun _ t => t.generated = m.generated) : Counts n result := by
  rcases takeId_makes taken with kept | made
  · refine Program.Ends.mono (later n (by rw [kept, same])) (fun _ _ => Or.inl) fun _ _ => Or.inl
  · refine Program.Ends.mono (later n.next (by rw [made, same])) (fun _ _ => Or.inr) fun _ _ => Or.inr

/-- A response, and what follows without a call of `generate_id`. -/
theorem sent_quiet (same : t.ids = n) (c : ConnId) (response : Response)
    (last : ∀ u : Server, u.ids = n →
      (next u).Ends (fun _ t => t.generated = n.generated) fun _ t => t.generated = n.generated) :
    ((t.send c response).andThen next).Ends (fun _ t => t.generated = n.generated)
      fun _ t => t.generated = n.generated := by
  rw [Ends_andThen]
  exact Program.Ends.mono (send_keeps same c response) (fun _ u later => last u later)
    fun _ _ later => congrArg Ids.generated later

end

variable {s : Server}

theorem begin_keeps (c : ConnId) (taken line : Bytes) : Keeps s.ids (s.begin c taken line) := by
  unfold begin
  simp only
  refine Keeps.andThen ?_ fun t same => same
  split
  · split <;> rfl
  · split
    · split <;> rfl
    · refine Keeps.andThen ?_ fun t same => same
      split
      · rfl
      · exact unlink_keeps rfl _

theorem popDirect_keeps (c : ConnId) (sent : Option Nat) : Keeps s.ids (s.popDirect c sent) := by
  unfold popDirect
  split
  · rfl
  · refine (unlinkDirect_keeps (by rfl) _).andThen fun t same => ?_
    cases sent with
    | none => exact same
    | some sent => exact same

theorem flush_keeps (c : ConnId) (sent : Option Nat) : Keeps s.ids (s.flush c sent) := by
  unfold flush
  refine Keeps.andThen ?_ fun t same => same
  split
  · exact popDirect_keeps c sent
  · cases sent with
    | none => rfl
    | some sent => rfl

theorem postNoid_keeps (c : ConnId) : Keeps s.ids (s.postNoid c) := by
  unfold postNoid
  simp only
  split
  · rfl
  · refine (unlink_keeps (by rfl) _).andThen fun t same => ?_
    split
    · exact same
    · exact (send_keeps (by exact same) _ _).andThen fun u later => later

theorem settle_keeps (id : Bytes) (worker : Option ConnId) :
    Keeps (s.eraseWait id).ids (s.settle id worker) := by
  unfold settle
  split
  · trivial
  · refine (unlink_keeps (by rfl) _).andThen fun t same => ?_
    split
    · exact same
    · cases worker with
      | none => exact (send_keeps same _ _).andThen fun u later => later
      | some c => exact (send_keeps same _ _).andThen fun u later => later

theorem resolve_keeps (c : ConnId) (key : Bytes) : Keeps s.ids (s.resolve c key) := by
  unfold resolve
  split
  · simp only
    split
    · trivial
    · rfl
  · trivial
  · rfl
  · trivial

theorem leaveList_keeps (c : ConnId) : Keeps s.ids (s.leaveList c) := by
  unfold leaveList
  split
  · trivial
  · split
    · trivial
    · exact (unlink_keeps (by rfl) c).noexcept.andThen fun t same => same

theorem refuseNoId_keeps (i j p : Nat) : Keeps s.ids (s.refuseNoId i j p) := by
  unfold refuseNoId
  split
  · trivial
  · split
    · trivial
    · exact send_keeps (by rw [modify_ids, takeMessage_ids]) _ _

theorem refuseCollision_makes (i j p random : Nat) :
    Makes s.ids (s.refuseCollision i j p random) := by
  unfold refuseCollision
  split
  · trivial
  · split
    · trivial
    · split
      · trivial
      · rename_i takenEq
        refine takeId_then (by rw [takeMessage_ids]) takenEq fun m same => ?_
        exact (send_keeps same _ _).andThen fun u later => later

theorem giveAsync_keeps (c : ConnId) (i j p : Nat) : Keeps s.ids (s.giveAsync c i j p) := by
  unfold giveAsync
  split
  · trivial
  · split
    · exact (send_keeps (by rw [modify_ids, takeMessage_ids]) _ _).andThen fun t same => same
    · trivial

theorem giveNoid_keeps (c : ConnId) (i j p : Nat) : Keeps s.ids (s.giveNoid c i j p) := by
  unfold giveNoid
  split
  · trivial
  · split
    · trivial
    · simp only
      refine (send_keeps ?_ _ _).andThen fun t same => same
      split
      · simp only [modify_ids, link_ids, takeMessage_ids]
      · simp only [modify_ids, takeMessage_ids]

theorem giveId_counts (c : ConnId) (i j p random : Nat) :
    Counts s.ids (s.giveId c i j p random) := by
  unfold giveId
  split
  · trivial
  · split
    · trivial
    · simp only
      split
      · trivial
      · rename_i takenEq
        refine takeId_counts (by rw [modify_ids, takeMessage_ids]) takenEq fun m same => ?_
        refine sent_quiet ?_ _ _ fun u later => congrArg Ids.generated later
        split
        · exact same
        · exact same

theorem register_keeps (c : ConnId) (i : Nat) : Keeps s.ids (s.register c i) := by
  unfold register
  simp only
  split
  · trivial
  · exact setQueue_ids s i _ _

theorem handAsync_keeps (c : ConnId) (i j p : Nat) (name : Bytes) :
    Keeps s.ids (s.handAsync c i j p name) := by
  unfold handAsync
  split
  · trivial
  · refine (dropEntry_keeps rfl i j p).andThen fun t same => ?_
    exact (send_keeps (by exact same) _ _).andThen fun u later => later

theorem handNoid_keeps (c : ConnId) (i j p : Nat) (name : Bytes) :
    Keeps s.ids (s.handNoid c i j p name) := by
  unfold handNoid
  split
  · trivial
  · refine (dropEntry_keeps rfl i j p).andThen fun t same => ?_
    exact (send_keeps (by exact same) _ _).andThen fun u later => later

theorem handId_counts (c : ConnId) (i j p : Nat) (name : Bytes) (random : Nat) :
    Counts s.ids (s.handId c i j p name random) := by
  unfold handId
  split
  · trivial
  · refine (dropEntry_keeps rfl i j p).andCounts fun t same => ?_
    split
    · trivial
    · rename_i takenEq
      refine takeId_counts same takenEq fun m later => ?_
      refine sent_quiet ?_ _ _ fun u last => congrArg Ids.generated last
      split
      · exact later
      · exact later

theorem undo_keeps {n : Ids} (same : s.ids = n) (c : ConnId) (i j p : Nat)
    (refusal : Response) : Keeps n (s.undo c i j p refusal) := by
  unfold undo
  split
  · trivial
  · refine (dropEntry_keeps same i j p).andThen fun t later => ?_
    simp only
    split
    · trivial
    · refine (send_keeps ?_ _ _).andThen fun u last => last
      rw [setQueue_ids]
      exact later

theorem enqueue_keeps (c : ConnId) (i : Nat) (message : Message) :
    Keeps s.ids (s.enqueue c i message) := by
  unfold enqueue
  simp only
  split
  · trivial
  · exact setQueue_ids s i _ _

theorem closeMessage_keeps (j : Nat) : Keeps s.ids (s.closeMessage j) := by
  unfold closeMessage
  split
  · trivial
  · split
    · trivial
    · split
      · trivial
      · simp only
        split
        · rfl
        · split
          · rfl
          · exact send_keeps rfl _ _

theorem closeWorker_keeps (j : Nat) : Keeps s.ids (s.closeWorker j) := by
  unfold closeWorker
  split
  · trivial
  · split
    · trivial
    · split
      · trivial
      · refine (unlink_keeps (by rfl) _).andThen fun t same => ?_
        split
        · exact same
        · exact send_keeps same _ _

theorem popItem_keeps : Keeps s.ids s.popItem := by
  unfold popItem
  split
  · trivial
  · split
    · trivial
    · exact (unlink_keeps (by rfl) _).noexcept.andThen fun t same => same

theorem unhook_keeps (key : Bytes) : Keeps s.ids (s.unhook key) := by
  unfold unhook
  split
  · rfl
  · split
    · trivial
    · rfl
  · trivial

theorem expire_keeps (i j p now : Nat) : Keeps s.ids (s.expire i j p now) := by
  unfold expire
  split
  · trivial
  · exact (send_keeps (by rfl) _ _).andThen fun t same => same

theorem releaseClient_keeps {n : Ids} (same : s.ids = n) (c : ConnId) :
    Keeps n (s.releaseClient c) := by
  unfold releaseClient
  split
  · trivial
  · exact (unlink_keeps same _).andThen fun t later => later

theorem failNoid_keeps (c : ConnId) : Keeps s.ids (s.failNoid c) := by
  unfold failNoid
  split
  · rfl
  · refine Keeps.andThen ?_ fun t same => releaseClient_keeps (by exact same) c
    split
    · rfl
    · exact send_keeps rfl _ _

theorem reapList_keeps (list : List ConnId) {n : Ids} (same : s.ids = n) :
    Keeps n (s.reapList list) := by
  induction list generalizing s with
  | nil => exact same
  | cons c rest ih =>
      unfold reapList
      split
      · trivial
      · split
        · exact ih same
        · exact ih same

theorem eraseOwn_keeps (c : ConnId) :
    Keeps (s.eraseWait (s.conns c).http.id).ids (s.eraseOwn c) := unlink_keeps (by rfl) c

end Server

def Action.writesWait : Action → Bool
  | .settle _ _ => true
  | .giveId _ _ _ _ _ => true
  | .handId _ _ _ _ _ _ => true
  | .eraseOwn _ => true
  | _ => false

namespace Server

/-- An action that does not write `wait_response` calls `generate_id` at most
once. -/
theorem apply_makes {action : Action} (plain : action.writesWait = false) (s : Server) :
    Makes s.ids (action.apply s) := by
  cases action with
  | accept => exact Or.inl rfl
  | receive => exact Or.inl rfl
  | count => exact Or.inl rfl
  | edit => exact Or.inl rfl
  | begin c taken line => exact (begin_keeps c taken line).makes
  | endHead => exact Or.inl rfl
  | complete => exact Or.inl rfl
  | rewind => exact Or.inl rfl
  | shut => exact Or.inl rfl
  | retire c => exact ((unlink_keeps rfl c).andThen fun t same => by exact same).makes
  | reap loop => exact (reapList_keeps _ rfl).makes
  | caught => exact Or.inl rfl
  | died => exact Or.inl rfl
  | flush c sent => exact (flush_keeps c sent).makes
  | refuseHeader c => exact (send_keeps rfl c _).makes
  | respond c response => exact ((send_keeps rfl c response).andThen fun t same => by exact same).makes
  | conclude c response => exact ((send_keeps rfl c response).andThen fun t same => by exact same).makes
  | postNoid c => exact (postNoid_keeps c).makes
  | settle => cases plain
  | workerMode => exact Or.inl rfl
  | noIdMode => exact Or.inl rfl
  | failMode => exact Or.inl rfl
  | beginAdd => exact Or.inl rfl
  | resolve c key => exact (resolve_keeps c key).makes
  | describe i info =>
      simp only [Action.apply]
      split
      · trivial
      · exact Or.inl rfl
  | visit i now =>
      simp only [Action.apply]
      split
      · trivial
      · exact Or.inl rfl
  | lock i on =>
      simp only [Action.apply]
      split
      · trivial
      · exact Or.inl rfl
  | nameConn => exact Or.inr rfl
  | leaveList c => exact (leaveList_keeps c).makes
  | dropDirects c => exact (unlinkDirects_keeps (by rfl) _).makes
  | wake => exact Or.inl rfl
  | dropMessage i j p =>
      simp only [Action.apply]
      split
      · trivial
      · exact Or.inl (takeMessage_ids s i j p _)
  | refuseNoId i j p => exact (refuseNoId_keeps i j p).makes
  | refuseCollision i j p random => exact refuseCollision_makes i j p random
  | giveAsync c i j p => exact (giveAsync_keeps c i j p).makes
  | giveNoid c i j p => exact (giveNoid_keeps c i j p).makes
  | giveId => cases plain
  | register c i => exact (register_keeps c i).makes
  | subscribe c i name =>
      simp only [Action.apply, subscribe]
      split
      · trivial
      · exact Or.inl rfl
  | finish => exact Or.inl rfl
  | collect =>
      simp only [Action.apply, collect]
      split
      · trivial
      · exact (deleteMessage_keeps (by rfl) _).makes
  | dropEntry i j p => exact (dropEntry_keeps rfl i j p).makes
  | handAsync c i j p name => exact (handAsync_keeps c i j p name).makes
  | handNoid c i j p name => exact (handNoid_keeps c i j p name).makes
  | handId => cases plain
  | undoNoId c i j p => exact (undo_keeps rfl c i j p _).makes
  | undoCollision c i j p random =>
      simp only [Action.apply]
      split
      · trivial
      · rename_i takenEq
        exact takeId_then rfl takenEq fun m same => undo_keeps same c i j p _
  | enqueueSync c i name => exact ((enqueue_keeps c i _).andThen fun t same => by exact same).makes
  | enqueueAsync c i name => exact ((enqueue_keeps c i _).andThen fun t same => by exact same).makes
  | newDirect => exact Or.inl rfl
  | publishClaim => exact Or.inl rfl
  | publishPush => exact Or.inl rfl
  | releaseDirect d => exact (unlinkDirect_keeps rfl d).makes
  | create key =>
      simp only [Action.apply]
      split
      · exact Or.inl rfl
      · exact Or.inl rfl
      · trivial
  | unhook key => exact (unhook_keeps key).makes
  | closeMessage j => exact (closeMessage_keeps j).makes
  | closeWorker j => exact (closeWorker_keeps j).makes
  | popItem => exact popItem_keeps.makes
  | bury => exact Or.inl rfl
  | expire i j p now => exact (expire_keeps i j p now).makes
  | discard i j p =>
      simp only [Action.apply, discard]
      split
      · trivial
      · exact (deleteMessage_keeps (by rw [eraseMessage_ids]) _).makes
  | eraseOwn => cases plain
  | failNoid c => exact (failNoid_keeps c).makes
  | releaseClient c => exact (releaseClient_keeps rfl c).makes

theorem apply_counts (action : Action) (s : Server) : Counts s.ids (action.apply s) := by
  cases plain : action.writesWait with
  | false => exact (apply_makes plain s).counts
  | true =>
      cases action with
      | settle id worker => exact (settle_keeps id worker).makes.counts
      | giveId c i j p random => exact giveId_counts c i j p random
      | handId c i j p name random => exact handId_counts c i j p name random
      | eraseOwn c => exact (eraseOwn_keeps c).makes.counts
      | _ => cases plain

end Server

end Ijson
