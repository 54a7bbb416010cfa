/-
What a pass of `Loop::_check_timeout` does.

Each open connection that waits as a worker in some deque past its deadline is
answered 408 once and waits no longer, whichever deques it stands in; nobody
else is touched, and the entries stay where they are.
-/

import Ijson.Cleaning

namespace Ijson

open Program

/-- The connection behind its `408 Timeout`. -/
def Conn.timedOut (now : Nat) (conn : Conn) : Conn :=
  { conn with
    status := if conn.workerMode then .workerModeAsync else .net
    sendBuffer := conn.sendBuffer ++ ascii "HTTP/1.1 408 Timeout\r\n" ++
      (if conn.keepAlive then ascii "Connection: keep-alive\r\n" else []) ++
      ascii "Content-Length: " ++ addNumber 0 ++ ascii "\r\n\r\n"
    writing := true
    http := { conn.http with pingTimeout := u32 (now + conn.http.ping) } }

namespace Server

variable {s t : Server}

/-- The worker waits past its deadline. -/
def due (s : Server) (now : Nat) (w : ConnId) : Bool :=
  (s.conns w).http.ping ≠ 0 && (s.conns w).http.pingTimeout ≤ now && !(s.conns w).closed &&
    (s.conns w).status = .workerWaitJob

/-- The 408 is given to the connection. -/
def toldLate (s : Server) (w : ConnId) : Event :=
  .response w (s.conns w).keepAlive ⟨"408 Timeout", [], .nothing⟩

def answered (s : Server) (now : Nat) (w : ConnId) : Server :=
  (s.modify w (Conn.timedOut now)).note (s.toldLate w)

/-- What the pass does at one entry. -/
def answerAt (now : Nat) (s : Server) (w : ConnId) : Server := if s.due now w then s.answered now w else s

theorem expire_due {i j p now : Nat} {w : ConnId} (found : s.workerAt i j p = some w)
    (due : s.due now w = true) : s.expire i j p now = .returned (s.answered now w) () := by
  have opened : (s.conns w).closed = false := by
    simp only [Server.due, Bool.and_eq_true, Bool.not_eq_true'] at due
    exact due.1.2
  have still : ((s.modify w afterAsync).conns w).closed = false := by
    rw [modify_self]
    exact opened
  rw [expire, found]
  simp only
  rw [send_open still]
  simp only [Result.andThen, sent, answered, note, modify, set, Function.update_self,
    Function.update_idem]
  refine congrArg (fun conn => Outcome.returned { s with
    conns := Function.update s.conns w conn, log := s.log ++ [s.toldLate w] } ()) ?_
  simp only [afterAsync, Conn.timedOut, Response.head, Response.tail, Response.withLength]
  simp only [List.flatMap_nil, List.append_nil, List.append_assoc, List.length_nil]
  rfl

/-! ### A list of entries -/

theorem answered_conns (s : Server) (now : Nat) (w x : ConnId) :
    (s.answered now w).conns x = if x = w then (s.conns w).timedOut now else s.conns x :=
  modify_conns s w x (Conn.timedOut now)

theorem timedOut_status (conn : Conn) (now : Nat) : (conn.timedOut now).status ≠ .workerWaitJob := by
  unfold Conn.timedOut
  cases conn.workerMode <;> simp

/-- The entries of a list have been gone through: who was due in it has been
answered, in some order and once. -/
structure Answered (now : Nat) (s t : Server) (entries : List ConnId) : Prop where
  conns : ∀ x, t.conns x = if x ∈ entries ∧ s.due now x = true then (s.conns x).timedOut now else s.conns x
  told : ∃ told : List ConnId, t.log = s.log ++ told.map s.toldLate ∧ told.Nodup ∧
    ∀ x, x ∈ told ↔ x ∈ entries ∧ s.due now x = true
  rest : t = { s with conns := t.conns, log := t.log }

theorem answerAll (now : Nat) (s : Server) (entries : List ConnId) :
    Answered now s (entries.foldl (answerAt now) s) entries := by
  induction entries using List.reverseRecOn with
  | nil => exact ⟨fun x => by simp, ⟨[], by simp, List.nodup_nil, fun x => by simp⟩, rfl⟩
  | append_singleton entries w ih =>
      rw [List.foldl_append]
      generalize entries.foldl (answerAt now) s = t at ih
      change Answered now s (answerAt now t w) (entries ++ [w])
      obtain ⟨told, logEq, distinct, mem⟩ := ih.told
      -- whether `w` is due now: it was, and has not been met before
      have dueNow : t.due now w = (decide (w ∉ entries) && s.due now w) := by
        unfold due
        rw [ih.conns w]
        by_cases met : w ∈ entries ∧ s.due now w = true
        · rw [if_pos met]
          simp [timedOut_status, met.1]
        · rw [if_neg met]
          by_cases member : w ∈ entries
          · have notDue : s.due now w = false := by simpa [member] using met
            simp only [member, not_true_eq_false, decide_false, Bool.false_and]
            exact notDue
          · simp only [member, not_false_eq_true, decide_true, Bool.true_and]
      unfold answerAt
      cases isDue : t.due now w with
      | false =>
          rw [if_neg Bool.false_ne_true]
          have known : ∀ x, (x ∈ entries ++ [w] ∧ s.due now x = true) ↔ (x ∈ entries ∧ s.due now x = true) := by
            intro x
            constructor
            · rintro ⟨member, late⟩
              rcases List.mem_append.mp member with old | new
              · exact ⟨old, late⟩
              · rw [List.mem_singleton.mp new] at late ⊢
                rw [isDue, late, Bool.and_true] at dueNow
                exact ⟨by simpa using dueNow.symm, late⟩
            · exact fun both => ⟨List.mem_append_left _ both.1, both.2⟩
          exact ⟨fun x => by rw [ih.conns x]; simp only [known], ⟨told, logEq, distinct, fun x => by
            rw [mem, known]⟩, ih.rest⟩
      | true =>
          rw [if_pos rfl]
          rw [isDue] at dueNow
          obtain ⟨absent, late⟩ : w ∉ entries ∧ s.due now w = true := by simpa using dueNow.symm
          refine ⟨fun x => ?_, ⟨told ++ [w], ?_, ?_, fun x => ?_⟩, ?_⟩
          · by_cases same : x = w
            · subst same
              rw [answered_conns, if_pos rfl, ih.conns x, if_neg fun both => absent both.1,
                if_pos ⟨List.mem_append_right entries (List.mem_singleton_self x), late⟩]
            · rw [answered_conns, if_neg same, ih.conns x]
              simp [same]
          · have alike : t.toldLate w = s.toldLate w := by
              rw [toldLate, toldLate, ih.conns w, if_neg fun both => absent both.1]
            change t.log ++ [t.toldLate w] = _
            rw [logEq, alike, List.map_append, List.map_singleton, List.append_assoc]
          · refine List.nodup_append.mpr ⟨distinct, List.nodup_singleton w, ?_⟩
            intro x member y here same
            rw [List.mem_singleton.mp here] at same
            subst same
            exact absent ((mem x).mp member).1
          · rw [List.mem_append, mem, List.mem_append, List.mem_singleton]
            by_cases same : x = w
            · subst same
              simp [late]
            · simp [same]
          · rw [answered, ih.rest]
            rfl

end Server

namespace Routine

open Server

variable {i j now : Nat} {s t u : Server}

theorem answerAt_registry (now : Nat) (s : Server) (w : ConnId) : (s.answerAt now w).registry = s.registry := by
  unfold answerAt
  split <;> rfl

theorem answerAll_registry (now : Nat) (s : Server) (entries : List ConnId) :
    (entries.foldl (answerAt now) s).registry = s.registry := by
  rw [(answerAll now s entries).rest]

theorem answerAt_freed (now : Nat) (s : Server) (w x : ConnId) :
    ((s.answerAt now w).conns x).freed = (s.conns x).freed := by
  unfold answerAt
  split
  · rw [answered_conns]
    split
    · rename_i same
      rw [same]
      rfl
    · rfl
  · rfl

theorem answerAll_freed (now : Nat) (s : Server) (entries : List ConnId) (x : ConnId) :
    ((entries.foldl (answerAt now) s).conns x).freed = (s.conns x).freed := by
  rw [(answerAll now s entries).conns x]
  split <;> rfl

/-- The pass over one deque, from a position on. -/
theorem expireDeque_returned (now fuel : Nat) (front rest : List ConnId) {s : Server}
    (entries : s.workersIn i j = front ++ rest) (enough : rest.length ≤ fuel) :
    (expireDeque i j now fuel front.length).outcome Action.apply s = .returned u () ↔
      s.Kept rest ∧ u = rest.foldl (answerAt now) s := by
  induction fuel generalizing front rest s with
  | zero =>
      have nothing : rest = [] := by simpa using enough
      subst nothing
      rw [expireDeque, pure_returned]
      simp [Server.Kept]
  | succ fuel ih =>
      rw [expireDeque, look_returned, workerAt_workersIn, entries]
      cases rest with
      | nil =>
          rw [List.append_nil, List.getElem?_eq_none (Nat.le_refl _)]
          simp only
          rw [pure_returned]
          simp [Server.Kept]
      | cons w rest =>
          have here : (front ++ w :: rest)[front.length]? = some w := by simp
          have found : s.workerAt i j front.length = some w := by rw [workerAt_workersIn, entries, here]
          have fewer : rest.length ≤ fuel := by
            rw [List.length_cons] at enough
            omega
          have now' : (s.answerAt now w).workersIn i j = (front ++ [w]) ++ rest := by
            rw [workersIn, answerAt_registry]
            change s.workersIn i j = _
            rw [entries]
            simp
          have later := ih (front ++ [w]) rest now' fewer
          have next : front.length + 1 = (front ++ [w]).length := by simp
          rw [← next] at later
          have kept : (s.answerAt now w).Kept rest ↔ s.Kept rest := by
            simp only [Server.Kept, answerAt_freed]
          rw [kept] at later
          rw [here]
          simp only
          rw [use_returned, Server.Kept, List.forall_mem_cons, and_assoc, List.foldl_cons]
          refine and_congr_right fun _ => ?_
          change (if s.due now w = true then _ else _ : Routine Unit).outcome Action.apply s = _ ↔ _
          cases isDue : s.due now w with
          | true =>
              have stepped : s.answerAt now w = s.answered now w := by rw [answerAt, isDue, if_pos rfl]
              rw [stepped] at later ⊢
              rw [if_pos rfl, act_returned]
              simp only [Action.apply, expire_due found isDue, Outcome.returned.injEq, and_true,
                exists_eq_left']
              exact later
          | false =>
              have stepped : s.answerAt now w = s := by rw [answerAt, isDue, if_neg Bool.false_ne_true]
              rw [stepped] at later ⊢
              rw [if_neg Bool.false_ne_true]
              exact later

/-! ### The whole pass -/

/-- Every queue can be locked, and no worker entry is of a freed connection. -/
def Passable (s : Server) : Prop :=
  ∀ place ∈ dequesOf s, (s.queue place.1 place.2).isSome →
    (∀ line, s.line place.1 = some line → line.locked = false) ∧ s.Kept (s.workersIn place.1 place.2)

/-- The body of the pass at one deque. -/
def expirePlace (now i j : Nat) (queue : Queue) : Routine Unit := do
  guardLine i
  expireDeque i j now queue.workers.length 0

theorem guardLine_returned {α : Type} {rest : Unit → Routine α} {value : α} {line : QueueLine}
    (live : s.line i = some line) :
    (guardLine i >>= rest).outcome Action.apply s = .returned t value ↔
      line.locked = false ∧ (rest ()).outcome Action.apply s = .returned t value := by
  have guarded : (guardLine i).outcome Action.apply s = if line.locked then .fault else .returned s () := by
    unfold guardLine
    rw [outcome_bind, outcome_get, Outcome.bind, live]
    simp only
    split <;> rfl
  rw [outcome_bind, guarded]
  cases line.locked with
  | true => simp [Outcome.bind]
  | false => simp [Outcome.bind]

theorem eachDeque_expires (places : List (Nat × Nat)) {s : Server} :
    (eachDeque (expirePlace now) places).outcome Action.apply s = .returned t () ↔
      (∀ place ∈ places, (s.queue place.1 place.2).isSome →
        (∀ line, s.line place.1 = some line → line.locked = false) ∧
          s.Kept (s.workersIn place.1 place.2)) ∧
        t = (places.flatMap fun place => s.workersIn place.1 place.2).foldl (answerAt now) s := by
  induction places generalizing s with
  | nil =>
      rw [eachDeque, pure_returned]
      simp
  | cons place places ih =>
      obtain ⟨i, j⟩ := place
      rw [eachDeque, look_returned, List.forall_mem_cons, List.flatMap_cons, List.foldl_append, and_assoc]
      cases live : s.queue i j with
      | none =>
          have nothing : s.workersIn i j = [] := by
            rw [workersIn, Registry.workersIn, ← queue_eq, live]
          simp only
          rw [ih, nothing]
          simp
      | some queue =>
          have entries := workersIn_of_queue live
          have isLine := live
          unfold Server.queue at isLine
          cases lineEq : s.line i with
          | none =>
              rw [lineEq] at isLine
              cases isLine
          | some line =>
              simp only
              rw [bind_returned]
              let m := (s.workersIn i j).foldl (answerAt now) s
              have registry : m.registry = s.registry := answerAll_registry now s _
              have first : ∀ u, (expirePlace now i j queue).outcome Action.apply s = .returned u () ↔
                  line.locked = false ∧ s.Kept (s.workersIn i j) ∧ u = m := by
                intro u
                have pass := expireDeque_returned (u := u) now queue.workers.length [] (s.workersIn i j)
                  rfl (by rw [entries])
                rw [expirePlace, guardLine_returned lineEq]
                exact and_congr_right fun _ => pass
              have later := ih (s := m)
              have lists : ∀ i j, m.workersIn i j = s.workersIn i j := fun i j => by
                rw [workersIn, registry]
                rfl
              have keeps : ∀ conns, m.Kept conns ↔ s.Kept conns := fun conns => by
                simp only [Server.Kept, m, answerAll_freed]
              simp only [queue_congr registry, line_congr registry, lists, keeps] at later
              simp only [Option.isSome_some, forall_const, Option.some.injEq, forall_eq']
              constructor
              · rintro ⟨middle, ⟨⟩, ran, rest⟩
                obtain ⟨free, kept, rfl⟩ := (first middle).mp ran
                obtain ⟨others, rfl⟩ := later.mp rest
                exact ⟨⟨free, kept⟩, others, rfl⟩
              · rintro ⟨⟨free, kept⟩, others, rfl⟩
                exact ⟨m, (), (first m).mpr ⟨free, kept, rfl⟩, later.mpr ⟨others, rfl⟩⟩

/-- Somebody is registered in a live queue. -/
def enlisted (s : Server) (w : ConnId) : Prop := ∃ place ∈ dequesOf s, w ∈ s.workersIn place.1 place.2

/-- A pass returns when every queue can be locked and no worker entry is of a
freed connection; then it answers exactly those that are due, each of them once,
and leaves all else alone. -/
theorem timeouts_answered (s : Server) (now : Nat) :
    ((∃ t, (checkTimeout now).outcome Action.apply s = .returned t ()) ↔ Passable s) ∧
      ∀ t, (checkTimeout now).outcome Action.apply s = .returned t () →
        (∀ x, enlisted s x → s.due now x = true → t.conns x = (s.conns x).timedOut now) ∧
        (∀ x, ¬(enlisted s x ∧ s.due now x = true) → t.conns x = s.conns x) ∧
        (∃ told : List ConnId, t.log = s.log ++ told.map s.toldLate ∧ told.Nodup ∧
          ∀ x, x ∈ told ↔ enlisted s x ∧ s.due now x = true) ∧
        t = { s with conns := t.conns, log := t.log } := by
  let entries := (dequesOf s).flatMap fun place => s.workersIn place.1 place.2
  have members : ∀ x, x ∈ entries ↔ enlisted s x := fun x => List.mem_flatMap
  have pass : ∀ t, (checkTimeout now).outcome Action.apply s = .returned t () ↔
      Passable s ∧ t = entries.foldl (answerAt now) s := fun t => eachDeque_expires (dequesOf s)
  constructor
  · constructor
    · rintro ⟨t, returned⟩
      exact ((pass t).mp returned).1
    · exact fun passable => ⟨_, (pass _).mpr ⟨passable, rfl⟩⟩
  · intro t returned
    obtain ⟨-, rfl⟩ := (pass t).mp returned
    have whole := answerAll now s entries
    refine ⟨fun x listed late => ?_, fun x other => ?_, ?_, whole.rest⟩
    · rw [whole.conns, if_pos ⟨(members x).mpr listed, late⟩]
    · rw [whole.conns, if_neg fun both => other ⟨(members x).mp both.1, both.2⟩]
    · simpa only [members] using whole.told

end Routine

end Ijson
