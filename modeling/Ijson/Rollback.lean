/-
The error exits of `client_request`.

When the id of a request turns out to be unusable, the worker that was claimed
for it has been taken out of its deque already.  The rollback puts it back to
the front, and the client is refused.
-/

import Ijson.CallReturns
import Ijson.Deques

namespace Ijson

open Program

def refusals : List Response := [⟨"400 No Id", [], .code (-1)⟩, ⟨"400 Collision Id", [], .code (-1)⟩]

/-- The two exits with -3. -/
def Action.undoes : Action → Bool
  | .undoNoId _ _ _ _ => true
  | .undoCollision _ _ _ _ _ => true
  | _ => false

/-- The worker `w` was claimed for `c` and put back, and `c` was refused. -/
structure RolledBack (s : Server) (c : ConnId) (i : Nat) (w : ConnId) (refusal : Response)
    (t : Server) : Prop where
  waits : s.idle w = true
  listed : 0 < (s.listed i).count w
  front : (t.workersIn i (s.conns w).nloop).head? = some w
  status : ∀ x, (t.conns x).status = (s.conns x).status
  idle : ∀ x, t.idle x = s.idle x
  threads : t.threads = s.threads
  nloop : ∀ x, (t.conns x).nloop = (s.conns x).nloop
  link : ∀ x, s.idle x = true → (t.conns x).link = (s.conns x).link
  count : ∀ x, s.idle x = true → (t.listed i).count x = (s.listed i).count x
  fewer : ∀ x, (t.listed i).count x ≤ (s.listed i).count x
  elsewhere : ∀ i' j', i' ≠ i → t.workersIn i' j' = s.workersIn i' j'
  tasks : ∀ i' j', t.tasks i' j' = s.tasks i' j'
  waitResponse : t.waitResponse = s.waitResponse
  silent : ∀ x, x ≠ c → (t.conns x).sendBuffer = (s.conns x).sendBuffer ∧
    (t.conns x).directMessage = (s.conns x).directMessage ∧ (t.conns x).writing = (s.conns x).writing
  answer : (t.conns c).sendBuffer = (s.conns c).sendBuffer ++
    (refusal.head (s.conns c).keepAlive ++ Response.tail s.jsonrpc2 refusal.payload)
  once : t.log = s.log ++ [.response c (s.conns c).keepAlive refusal]
  lines : Server.SameLines s t

namespace Server

variable {s t u : Server} {c : ConnId} {i j p : Nat}

/-- The state in which the rollback starts: the search is over, and the request
of the client may have been read further. -/
structure Searched (s t u : Server) (i : Nat) : Prop where
  culled : Culled s t i
  registry : u.registry = t.registry
  waitResponse : u.waitResponse = t.waitResponse
  log : u.log = t.log
  jsonrpc2 : u.jsonrpc2 = t.jsonrpc2
  threads : u.threads = t.threads
  conns : ∀ x, ∃ http, u.conns x = { t.conns x with http := http }

theorem Culled.searched (culled : Culled s t i) : Searched s t t i :=
  ⟨culled, rfl, rfl, rfl, rfl, rfl, fun _ => ⟨_, rfl⟩⟩

theorem Culled.searched_taken (culled : Culled s t i) {random : Nat} {id : Bytes}
    (taken : t.takeId c random = some (u, id)) : Searched s t u i := by
  unfold takeId at taken
  cases found : (t.conns c).http.requestId t.generated random with
  | error error =>
      rw [found] at taken
      cases taken
  | ok result =>
      obtain ⟨http, generated⟩ := result
      rw [found] at taken
      cases taken
      refine ⟨culled, rfl, rfl, rfl, rfl, rfl, fun x => ?_⟩
      rw [modify_conns]
      by_cases same : x = c
      · rw [if_pos same, same]
        exact ⟨http, rfl⟩
      · rw [if_neg same]
        exact ⟨_, rfl⟩

theorem reclaimed_conns {w : ConnId} (waits : (s.conns w).status = .workerWaitJob) :
    (((s.unlinked w).link w).modify w fun conn => { conn with status := .workerWaitJob }).conns =
      s.conns := by
  funext x
  rw [modify_conns]
  by_cases same : x = w
  · have number : (s.conns w).link - 1 + 1 = (s.conns w).link := by omega
    rw [if_pos same, same, link_conns, unlinked_conns, if_pos rfl, if_pos rfl, number, ← waits]
  · rw [if_neg same, link_conns, unlinked_conns, if_neg same, if_neg same]

theorem setQueue_eq (s : Server) (i j : Nat) (queue : Queue) :
    s.setQueue i j queue = { s with registry := (s.setQueue i j queue).registry } := by
  unfold setQueue
  cases s.line i <;> rfl

theorem put_rolls {w : ConnId} {queue : Queue} (culled : Culled s t i)
    (found : t.workerAt i j p = some w) (waits : s.idle w = true)
    (registry : u.registry = (t.eraseWorker i j p).registry) (waitResponse : u.waitResponse = t.waitResponse)
    (log : u.log = t.log) (jsonrpc2 : u.jsonrpc2 = t.jsonrpc2) (threads : u.threads = t.threads)
    (conns : ∀ x, ∃ http, u.conns x = { t.conns x with http := http })
    (live : u.queue i (s.conns w).nloop = some queue) (refusal : Response) :
    RolledBack s c i w refusal (((u.setQueue i (s.conns w).nloop
      { queue with workers := w :: queue.workers }).sent c refusal).enter (.answered c)) := by
  generalize putEq : u.setQueue i (s.conns w).nloop { queue with workers := w :: queue.workers } = put
  have whole := setQueue_eq u i (s.conns w).nloop { queue with workers := w :: queue.workers }
  rw [putEq] at whole
  have putRegistry : ((put.sent c refusal).enter (.answered c)).registry = (u.setQueue i (s.conns w).nloop
      { queue with workers := w :: queue.workers }).registry := by rw [putEq]; rfl
  have putConns : put.conns = u.conns := by rw [whole]
  have same : ∀ x, ∃ http link, u.conns x = { s.conns x with http := http, link := link } := by
    intro x
    obtain ⟨http, equal⟩ := conns x
    rw [equal, culled.conn x]
    exact ⟨_, _, rfl⟩
  have other : ∀ x, x ≠ c → ((put.sent c refusal).enter (.answered c)).conns x = u.conns x := by
    intro x different
    rw [enter_conns, Server.sent, note_conns, modify_conns, if_neg different, putConns]
  have here : ((put.sent c refusal).enter (.answered c)).conns c = { u.conns c with
      sendBuffer := (u.conns c).sendBuffer ++ refusal.head (u.conns c).keepAlive ++
        Response.tail put.jsonrpc2 refusal.payload
      writing := true } := by
    rw [enter_conns, Server.sent, note_conns, modify_self, putConns]
  have listed : ∀ x, (((put.sent c refusal).enter (.answered c)).listed i).count x =
      (t.listed i).count x := by
    intro x
    have counts := setQueue_listed live { queue with workers := w :: queue.workers } x
    have erased := eraseWorker_listed found x
    have back : (u.listed i).count x = ((t.eraseWorker i j p).listed i).count x := by
      rw [Server.listed, Server.listed, registry]
    rw [Server.listed, putRegistry]
    rw [List.count_cons] at counts
    by_cases equal : x = w
    · simp only [equal, beq_self_eq_true, if_true] at counts erased back ⊢
      omega
    · have differs : (w == x) = false := by simpa using Ne.symm equal
      rw [differs, if_neg Bool.false_ne_true] at counts
      rw [if_neg equal] at erased
      omega
  refine
    { waits := waits
      listed := ?_
      front := ?_
      status := fun x => ?_
      idle := fun x => ?_
      threads := ?_
      nloop := fun x => ?_
      link := fun x idle => ?_
      count := fun x idle => ?_
      fewer := fun x => ?_
      elsewhere := fun i' j' different => ?_
      tasks := fun i' j' => ?_
      waitResponse := ?_
      silent := fun x different => ?_
      answer := ?_
      once := ?_
      lines := ?_ }
  · rw [← culled.count w waits]
    have entry := eraseWorker_listed found w
    rw [if_pos rfl] at entry
    omega
  · rw [Server.workersIn, putRegistry, setQueue_workersIn live, if_pos ⟨rfl, rfl⟩]
    rfl
  · obtain ⟨http, link, equal⟩ := same x
    by_cases isClient : x = c
    · rw [isClient, here]
      rw [isClient] at equal
      rw [equal]
    · rw [other x isClient, equal]
  · obtain ⟨http, link, equal⟩ := same x
    unfold Server.idle
    by_cases isClient : x = c
    · rw [isClient, here]
      rw [isClient] at equal
      rw [equal]
    · rw [other x isClient, equal]
  · have kept : put.threads = u.threads := by rw [whole]
    change put.threads = _
    rw [kept, threads, culled.threads]
  · obtain ⟨http, link, equal⟩ := same x
    by_cases isClient : x = c
    · rw [isClient, here]
      rw [isClient] at equal
      rw [equal]
    · rw [other x isClient, equal]
  · obtain ⟨http, equal⟩ := conns x
    rw [← culled.link x idle]
    by_cases isClient : x = c
    · rw [isClient, here]
      rw [isClient] at equal
      rw [equal]
    · rw [other x isClient, equal]
  · rw [listed, culled.count x idle]
  · rw [listed]
    exact culled.fewer x
  · rw [← culled.elsewhere i' j' different, Server.workersIn, putRegistry, setQueue_workersIn live,
      if_neg fun both => different both.1, Server.workersIn, registry]
    have erased := eraseWorker_workersIn (s := t) i j p i' j'
    rw [if_neg fun both => different both.1] at erased
    exact erased
  · have old : u.tasks i' j' = s.tasks i' j' := by
      rw [← culled.tasks i' j', Server.tasks, registry]
      exact eraseWorker_tasks i j p i' j'
    rw [Server.tasks, putRegistry, setQueue_tasks live]
    by_cases place : i' = i ∧ j' = (s.conns w).nloop
    · rw [if_pos place, ← old, place.1, place.2, tasks_of_queue live]
    · rw [if_neg place, old]
  · have kept : put.waitResponse = u.waitResponse := by rw [whole]
    change put.waitResponse = _
    rw [kept, waitResponse, culled.waitResponse]
  · obtain ⟨http, link, equal⟩ := same x
    rw [other x different, equal]
    exact ⟨rfl, rfl, rfl⟩
  · obtain ⟨http, link, equal⟩ := same c
    have protocol : put.jsonrpc2 = s.jsonrpc2 := by
      rw [whole]
      exact jsonrpc2.trans culled.jsonrpc2
    rw [here, equal, protocol, List.append_assoc]
  · have kept : put.log = s.log := by
      rw [whole]
      exact log.trans culled.log
    obtain ⟨http, link, equal⟩ := same c
    change put.log ++ [.response c (put.conns c).keepAlive refusal] = _
    rw [kept, putConns, equal]
  · have erased := (culled.lines.trans (eraseWorker_sameLines t i j p)).trans (.of_registry registry)
    exact (erased.trans (setQueue_sameLines u i _ _)).trans (.of_registry putRegistry)

theorem reclaimed_keeps {w : ConnId} {back : Server}
    (backEq : ((s.unlinked w).link w).modify w (fun conn => { conn with status := .workerWaitJob }) = back) :
    back.registry = s.registry ∧ back.waitResponse = s.waitResponse ∧ back.log = s.log ∧
      back.jsonrpc2 = s.jsonrpc2 ∧ back.threads = s.threads := by
  rw [← backEq]
  exact ⟨rfl, rfl, rfl, rfl, rfl⟩

theorem eraseWorker_keeps (u : Server) (i j p : Nat) :
    (u.eraseWorker i j p).waitResponse = u.waitResponse ∧ (u.eraseWorker i j p).log = u.log ∧
      (u.eraseWorker i j p).jsonrpc2 = u.jsonrpc2 ∧ (u.eraseWorker i j p).threads = u.threads := by
  rw [eraseWorker_eq]
  exact ⟨rfl, rfl, rfl, rfl⟩

theorem undo_rolls {w : ConnId} (searched : Searched s t u i) (found : t.workerAt i j p = some w)
    (waits : s.idle w = true) (refusal : Response) :
    (u.undo c i j p refusal).Ends (fun _ v => RolledBack s c i w refusal v) fun _ _ => True := by
  obtain ⟨culled, registry, waitResponse, log, jsonrpc2, threads, conns⟩ := searched
  have foundNow : u.workerAt i j p = some w := by
    rw [workerAt_congr registry, found]
  have status : (u.conns w).status = .workerWaitJob := by
    obtain ⟨http, equal⟩ := conns w
    rw [equal, culled.conn w]
    simpa using (Bool.and_eq_true_iff.mp waits).2
  have nloop : (u.conns w).nloop = (s.conns w).nloop := by
    obtain ⟨http, equal⟩ := conns w
    rw [equal, culled.conn w]
  unfold undo
  rw [foundNow]
  simp only [dropEntry, foundNow, Ends_andThen]
  refine unlink_ends (fun _ => ?_) fun _ => trivial
  generalize backEq : (((u.eraseWorker i j p).unlinked w).link w).modify w
    (fun conn => { conn with status := .workerWaitJob }) = back
  have backConns : back.conns = u.conns := by
    rw [← backEq, reclaimed_conns (by rw [eraseWorker_conns, status]), eraseWorker_conns]
  obtain ⟨registryEq, waitEq, logEq, protocolEq, threadsEq⟩ := reclaimed_keeps backEq
  obtain ⟨waitOld, logOld, protocolOld, threadsOld⟩ := eraseWorker_keeps u i j p
  have backRegistry : back.registry = (t.eraseWorker i j p).registry := by
    rw [registryEq, eraseWorker_congr registry]
  have backWait : back.waitResponse = t.waitResponse := by rw [waitEq, waitOld, waitResponse]
  have backLog : back.log = t.log := by rw [logEq, logOld, log]
  have backProtocol : back.jsonrpc2 = t.jsonrpc2 := by rw [protocolEq, protocolOld, jsonrpc2]
  have backThreads : back.threads = t.threads := by rw [threadsEq, threadsOld, threads]
  rw [backConns, nloop]
  cases live : back.queue i (s.conns w).nloop with
  | none => trivial
  | some queue =>
      simp only [Ends_andThen]
      refine send_ends (fun _ => ?_) fun _ => trivial
      exact put_rolls culled found waits backRegistry backWait backLog backProtocol
        backThreads (fun x => by rw [backConns]; exact conns x) live refusal

end Server

/-! ### A whole call -/

/-- The worker that is handed the request of `c` to slot `i` at a moment. -/
def hands (c : ConnId) (i : Nat) (moment : Action × Server) : Option ConnId :=
  match moment.1 with
  | .handAsync d k j p _ | .handNoid d k j p _ | .handId d k j p _ _ =>
      if d = c ∧ k = i then moment.2.workerAt k j p else none
  | _ => none

/-- The last thing that happened is an exit with -3. -/
def Undone (moments : List (Action × Server)) : Prop :=
  ∃ moment, moments.getLast? = some moment ∧ moment.1.undoes = true

theorem undone_append {moments : List (Action × Server)} {action : Action} {s : Server} :
    Undone (moments ++ [(action, s)]) ↔ action.undoes = true := by
  unfold Undone
  rw [List.getLast?_concat]
  exact ⟨fun ⟨_, last, undoes⟩ => by cases last; exact undoes, fun undoes => ⟨_, rfl, undoes⟩⟩

namespace Routine

variable {env : Env} {c : ConnId} {i j : Nat} {s t : Server} {past : List (Action × Server)}
  {name : Bytes}

/-- How a call to the queue in slot `i` ends: a waiting worker is handed the
request, its claim is rolled back, or no waiting worker will do. -/
inductive CallEnd (env : Env) (s : Server) (c : ConnId) (i : Nat) (now : Recorded Server Action) : Prop where
  | handed (moment : Action × Server) (w : ConnId) (member : moment ∈ now.2)
      (hand : hands c i moment = some w) (waits : s.idle w = true) (other : ¬ Undone now.2)
  | undone (j : Nat) (w : ConnId) (refusal : Response)
      (loop : j ∈ loopOrder (s.conns c).nloop s.threads) (entry : w ∈ s.workersIn i j)
      (refused : refusal ∈ refusals) (rolled : RolledBack s c i w refusal now.1) (last : Undone now.2)
      (unusable : ¬Named env s c)
  | lacking (lacks : ∀ j ∈ loopOrder (s.conns c).nloop s.threads,
      Lacks s s i (s.conns c).http.requiredWorker j) (other : ¬ Undone now.2)

abbrev anyMoment (_ : Action) (_ : Recorded Server Action) : Prop := True

theorem wp_last {Q : Unit → Recorded Server Action → Prop} {action : Action}
    (holds : ∀ after, Q () (after, past ++ [(action, t)])) :
    (perform action : Routine Unit).recorded.wp (recording Action.apply) anyMoment Q (fun _ _ => True)
      (t, past) := by
  rw [recorded_perform]
  refine ⟨trivial, recording_ends ?_⟩
  cases action.apply (t, past).1 with
  | returned after value => exact holds after
  | thrown after error => trivial
  | fault => trivial

theorem guardLine_recorded {α : Type} {Q : α → Recorded Server Action → Prop}
    {E : Exc → Recorded Server Action → Prop} {rest : Unit → Routine α} (i : Nat)
    (holds : (rest ()).recorded.wp (recording Action.apply) anyMoment Q E (t, past)) :
    (guardLine i >>= rest).recorded.wp (recording Action.apply) anyMoment Q E (t, past) := by
  rw [recorded_bind, wp_bind, guardLine, wp_recorded_get]
  cases t.line i with
  | none => trivial
  | some line =>
      simp only
      split
      · trivial
      · exact holds

/-- A synchronous request is handed over or the claim undone. -/
theorem handSync_ends {u : Server} {p : Nat} {w : ConnId} (culled : Server.Culled s u i)
    (found : u.workerAt i j p = some w) (waits : s.idle w = true) (mode : (s.conns c).http.noResponse = false)
    (loop : j ∈ loopOrder (s.conns c).nloop s.threads) (entry : w ∈ s.workersIn i j) :
    (handSync env c i j p name).recorded.wp (recording Action.apply) anyMoment
      (fun _ now => CallEnd env s c i now) (fun _ _ => True) (u, past) := by
  have handed : ∀ {action : Action} (after : Server), hands c i (action, u) = some w →
      action.undoes = false → CallEnd env s c i (after, past ++ [(action, u)]) := by
    intro action after hand other
    refine .handed (action, u) w (by simp) hand waits fun undone => ?_
    rw [undone_append, other] at undone
    cases undone
  have undone : ∀ {action : Action} {v : Server} {refusal : Response}, refusal ∈ refusals →
      action.undoes = true →
      action.apply u = v.undo c i j p refusal → Server.Searched s u v i → ¬Named env s c →
      (perform action : Routine Unit).recorded.wp (recording Action.apply) anyMoment
        (fun _ now => CallEnd env s c i now) (fun _ _ => True) (u, past) := by
    intro action v refusal refused undoes applied searched unusable
    rw [recorded_perform]
    refine ⟨trivial, recording_ends ?_⟩
    rw [applied]
    refine Ends.mono (Server.undo_rolls searched found waits refusal) (fun _ after rolled => ?_)
      fun _ _ _ => trivial
    exact .undone j w refusal loop entry refused rolled (undone_append.mpr undoes) unusable
  rw [handSync, wp_recorded_get]
  simp only [found]
  split
  · exact wp_last fun after => handed after (by simp [hands, found]) rfl
  · have named : ∀ http made, (s.conns c).http.requestId s.generated (env.random s.generated) = .ok (http, made) →
        ∃ v, u.takeId c (env.random u.generated) = some (v, http.id) := by
      intro http made isNamed
      have namedNow : (u.conns c).http.requestId u.generated (env.random u.generated) = .ok (http, made) := by
        rw [culled.conn c, culled.generated]
        exact isNamed
      obtain ⟨v, taken, -⟩ := Server.takeId_named namedNow
      exact ⟨v, taken⟩
    cases taken : u.takeId c (env.random u.generated) with
    | none =>
        refine undone List.mem_cons_self rfl rfl culled.searched fun usable => ?_
        obtain ⟨http, made, isNamed, -⟩ := usable.resolve_left (by rw [mode]; exact Bool.false_ne_true)
        obtain ⟨v, now⟩ := named http made isNamed
        rw [taken] at now
        cases now
    | some result =>
        obtain ⟨v, id⟩ := result
        simp only
        split
        · rename_i used
          refine undone (List.mem_cons_of_mem _ List.mem_cons_self) rfl ?_ (culled.searched_taken taken)
            fun usable => ?_
          · simp only [Action.apply, taken]
          · obtain ⟨http, made, isNamed, unused⟩ := usable.resolve_left (by rw [mode]; exact Bool.false_ne_true)
            obtain ⟨v, now⟩ := named http made isNamed
            rw [taken] at now
            cases now
            rw [Server.waiting, culled.waitResponse, ← Server.waiting, unused] at used
            cases used
        · exact wp_last fun after => handed after (by simp [hands, found]) rfl

theorem option_recorded {α : Type} {Q : α → Recorded Server Action → Prop}
    {E : Exc → Recorded Server Action → Prop} {rest : Bytes → Routine α} (c : ConnId)
    (holds : ∀ value, (rest value).recorded.wp (recording Action.apply) anyMoment Q E (t, past)) :
    (option c >>= rest).recorded.wp (recording Action.apply) anyMoment Q E (t, past) := by
  rw [recorded_bind, wp_bind, option, wp_recorded_get]
  simp only
  cases (t.conns c).http.headerOption with
  | none => exact holds []
  | some view =>
      simp only
      cases view.place with
      | array => exact holds _
      | block number =>
          simp only
          split
          · exact holds _
          · trivial

theorem clientRequest_ends {registry : Registry}
    (looked : s.registry.getQueue s.threads name false = .returned registry (some i)) :
    (clientRequest env name c).recorded.wp (recording Action.apply) anyMoment
      (fun _ now => CallEnd env s c i now) (fun _ _ => True) (s, past) := by
  have last : ∀ {action : Action} {u : Server} {past : List (Action × Server)},
      action.undoes = false → ¬ Undone (past ++ [(action, u)]) := by
    intro action u past other undone
    rw [undone_append, other] at undone
    cases undone
  rw [clientRequest, wp_recorded_perform]
  refine ⟨trivial, recording_ends ?_⟩
  simp only [Action.apply, Ends_returned, wp_recorded_get, looked]
  apply guardLine_recorded
  rw [recorded_bind, wp_bind]
  have counted : Server.Culled s { s with stats := { s.stats with call := s.stats.call + 1 } } i :=
    { Server.Culled.refl s i with conn := fun _ => rfl, lines := .of_registry rfl }
  refine wp_mono (wp_recorded (findWorkerIn_culled _ _ counted) _) (fun place now found => ?_)
    fun _ _ _ => trivial
  obtain ⟨u, before⟩ := now
  obtain ⟨culled, found⟩ := found
  cases place with
  | some place =>
      obtain ⟨j, p⟩ := place
      obtain ⟨loop, w, foundEq, waits, -⟩ := found
      have entry : w ∈ s.workersIn i j := by
        have kept : w ∈ (u.workersIn i j).filter s.idle := by
          rw [Server.workerAt_workersIn] at foundEq
          exact List.mem_filter.mpr ⟨List.mem_of_getElem? foundEq, waits⟩
        rw [culled.waiting j] at kept
        exact (List.mem_filter.mp kept).1
      simp only
      split
      · rw [wp_recorded_perform]
        refine ⟨trivial, recording_ends ?_⟩
        cases (Action.handAsync c i j p name).apply (u, before).1 with
        | returned after value =>
            refine wp_last fun later => ?_
            have hand : hands c i (.handAsync c i j p name, u) = some w := by simp [hands, foundEq]
            exact .handed (.handAsync c i j p name, u) w (by simp) hand waits (last rfl)
        | thrown after error => trivial
        | fault => trivial
      · rename_i mode
        exact handSync_ends culled foundEq waits (by simpa using mode) loop entry
  | none =>
      have ended : ∀ {action : Action} {u : Server} {past : List (Action × Server)},
          action.undoes = false → (perform action : Routine Unit).recorded.wp
            (recording Action.apply) anyMoment (fun _ now => CallEnd env s c i now)
            (fun _ _ => True) (u, past) :=
        fun other => wp_last fun after => .lacking found (last other)
      apply option_recorded
      intro option
      rw [wp_recorded_get]
      simp only
      cases u.line i with
      | none => trivial
      | some line =>
          simp only
          split
          · exact ended rfl
          · split
            · rw [wp_recorded_perform]
              refine ⟨trivial, recording_ends ?_⟩
              cases (Action.enqueueAsync c i name).apply (u, before).1 with
              | returned after value => exact ended rfl
              | thrown after error => trivial
              | fault => trivial
            · exact ended rfl

theorem clientRequest_ended (env : Env) (name : Bytes) (c : ConnId) {registry : Registry}
    (looked : s.registry.getQueue s.threads name false = .returned registry (some i)) :
    ((clientRequest env name c).run Action.apply s).2.Ends
      (fun _ t => CallEnd env s c i (t, ((clientRequest env name c).run Action.apply s).1)) fun _ _ => True := by
  have ended := outcome_recorded (clientRequest_ends (c := c) looked : (clientRequest env name c).recorded.wp
    (recording Action.apply) anyMoment (fun _ now => CallEnd env s c i now) (fun _ _ => True) (s, []))
  exact ended

theorem undone_looked (undone : Undone ((clientRequest env name c).run Action.apply s).1)
    (returned : ((clientRequest env name c).run Action.apply s).2 = .returned t ()) :
    ∃ i registry, s.registry.getQueue s.threads name false = .returned registry (some i) := by
  by_contra missing
  have ends : (clientRequest env name c).recorded.wp (recording Action.apply) anyMoment
      (fun _ now => ¬ Undone now.2) (fun _ _ => True) (s, []) := by
    rw [clientRequest, wp_recorded_perform]
    refine ⟨trivial, recording_ends ?_⟩
    simp only [Action.apply, Ends_returned, wp_recorded_get]
    cases looked : s.registry.getQueue s.threads name false with
    | fault => trivial
    | thrown registry error => trivial
    | returned registry slot =>
        cases slot with
        | none =>
            refine wp_last fun after undone => ?_
            rw [undone_append] at undone
            cases undone
        | some i => exact absurd ⟨i, registry, looked⟩ missing
  have ended := outcome_recorded ends
  rw [returned] at ended
  exact ended undone

/-- A request of `d` to the queue in slot `i` that suits the waiting worker `w`,
and whose id can be used. -/
structure Valid (env : Env) (name : Bytes) (d : ConnId) (i : Nat) (w : ConnId) (t : Server) : Prop where
  looked : ∃ registry, t.registry.getQueue t.threads name false = .returned registry (some i)
  loop : (t.conns d).nloop < t.threads
  opened : (t.conns d).closed = false
  wanted : t.wanted (t.conns d).http.requiredWorker w = true
  named : Named env t d

def Served (env : Env) (name : Bytes) (d : ConnId) (i : Nat) (t : Server) : Prop :=
  ∃ after, ((clientRequest env name d).run Action.apply t).2 = .returned after () ∧
    ∃ moment ∈ ((clientRequest env name d).run Action.apply t).1, ∃ x, hands d i moment = some x ∧ t.idle x = true

theorem mem_loopOrder {own threads j : Nat} (below : j < threads) : j ∈ loopOrder own threads := by
  unfold loopOrder
  by_cases same : j = own
  · rw [same]
    exact List.mem_cons_self
  · exact List.mem_cons_of_mem _ (List.mem_filter.mpr ⟨List.mem_range.mpr below, by simpa using same⟩)

/-- Where a worker waits that suits, valid requests are served when the deques can be searched. -/
theorem served_iff {w d : ConnId} {line : QueueLine} (live : t.line i = some line) (free : line.locked = false)
    (deques : ∀ j < t.threads, (t.queue i j).isSome = true) (own : (t.conns w).nloop < t.threads)
    (member : w ∈ t.workersIn i (t.conns w).nloop) (waits : t.idle w = true)
    (valid : Valid env name d i w t) : Served env name d i t ↔ Searchable t i d := by
  obtain ⟨registry, looked⟩ := valid.looked
  have suits : t.suits (t.conns d).http.requiredWorker w = true := by
    rw [Server.suits, waits, valid.wanted, Bool.and_true]
  obtain ⟨found, picks⟩ : ∃ found, t.pick i (t.conns d).http.requiredWorker
      (loopOrder (t.conns d).nloop t.threads) = some found := by
    by_contra nobody
    have empty := Option.eq_none_iff_forall_not_mem.mpr fun found isFound => nobody ⟨found, isFound⟩
    rw [Server.pick, List.head?_eq_none_iff] at empty
    have missing := List.filterMap_eq_nil_iff.mp empty _ (mem_loopOrder own)
    rw [Option.map_eq_none_iff, List.find?_eq_none] at missing
    exact missing w member suits
  have returns := clientRequest_returned_iff (w := found.2) (j := found.1) looked live free (fun j inLoops => by
      rcases List.mem_cons.mp inLoops with same | other
      · exact deques j (same ▸ valid.loop)
      · exact deques j (List.mem_range.mp (List.mem_of_mem_filter other)))
    valid.opened valid.named picks
  rw [← returns]
  constructor
  · rintro ⟨after, returned, -⟩
    exact ⟨after, returned⟩
  · rintro ⟨after, returned⟩
    have ended := clientRequest_ended env name d looked
    change ((clientRequest env name d).run Action.apply t).2 = _ at returned
    rw [returned] at ended
    cases ended with
    | handed moment x inside hand idle _ => exact ⟨after, returned, moment, inside, x, hand, idle⟩
    | undone j x refusal loop entry refused rolled last unusable => exact absurd valid.named unusable
    | lacking lacks _ =>
        have unwanted := lacks _ (mem_loopOrder own) w member waits
        rw [valid.wanted] at unwanted
        cases unwanted

/-- The claim of `w` is undone: the worker waits in the queue again, once, and the
client can send its next request; and valid requests are served. -/
structure Restored (s : Server) (c : ConnId) (i : Nat) (w : ConnId) (t : Server) : Prop where
  rolled : ∃ refusal ∈ refusals, RolledBack s c i w refusal t
  single : (t.listed i).count w = 1
  ready : (t.conns c).status = .net
  serves : ∀ env name d, Valid env name d i w t → Served env name d i t

theorem unlocked_of_returned {registry : Registry} {line : QueueLine}
    (looked : s.registry.getQueue s.threads name false = .returned registry (some i)) (live : s.line i = some line)
    (returned : (clientRequest env name c).outcome Action.apply s = .returned t ()) : line.locked = false := by
  let m := { s with stats := { s.stats with call := s.stats.call + 1 } }
  have lookedNow : m.registry.getQueue m.threads name false = .returned registry (some i) := looked
  rw [clientRequest, perform_outcome (show Action.apply _ s = .returned m () from rfl), get_outcome] at returned
  simp only [lookedNow] at returned
  obtain ⟨_, _, guarded, -⟩ := bind_returned.mp returned
  rw [guardLine, get_outcome, show m.line i = some line from live] at guarded
  by_contra held
  rw [Bool.not_eq_false] at held
  simp only [held, if_true, outcome_fault] at guarded
  cases guarded

/-- The claim is undone by every call that ends with -3.  All is restored exactly
when the client was ready before, and the deques can be searched for the valid
requests that may follow. -/
theorem restored_iff (env : Env) (name : Bytes) (c : ConnId) (s t : Server) (met : Met anything s)
    (returned : ((clientRequest env name c).run Action.apply s).2 = .returned t ())
    (undone : Undone ((clientRequest env name c).run Action.apply s).1) :
    ∃ registry i w refusal, s.registry.getQueue s.threads name false = .returned registry (some i) ∧
      refusal ∈ refusals ∧ RolledBack s c i w refusal t ∧ (t.listed i).count w = 1 ∧
      (Restored s c i w t ↔ (s.conns c).status = .net ∧
        ∀ env name d, Valid env name d i w t → Searchable t i d) := by
  have homed := homed_met met
  obtain ⟨i, registry, looked⟩ := undone_looked undone returned
  have ended := clientRequest_ended env name c looked
  rw [returned] at ended
  cases ended with
  | handed moment x inside hand idle other => exact absurd undone other
  | lacking lacks other => exact absurd undone other
  | undone j w refusal loop entry refused rolled last unusable =>
      have home := homed.home entry
      have single : (t.listed i).count w = 1 := by
        have atMost := homed.listed i w
        have before := rolled.listed
        rw [rolled.count w rolled.waits]
        omega
      have own : (t.conns w).nloop < t.threads := by
        rw [rolled.nloop, rolled.threads]
        exact homed.loops w home.1
      have member : w ∈ t.workersIn i (t.conns w).nloop := by
        rw [rolled.nloop]
        exact List.mem_of_mem_head? rolled.front
      have waits : t.idle w = true := by
        rw [rolled.idle]
        exact rolled.waits
      have served : ∀ env name d, Valid env name d i w t → (Served env name d i t ↔ Searchable t i d) := by
        intro env name d valid
        obtain ⟨line, live⟩ : ∃ line, s.line i = some line := by
          obtain ⟨p, found⟩ := List.mem_iff_getElem?.mp entry
          rw [← Server.workerAt_workersIn, Server.workerAt] at found
          obtain ⟨queue, held, -⟩ := Option.bind_eq_some_iff.mp found
          obtain ⟨line, live, -⟩ := Option.bind_eq_some_iff.mp held
          exact ⟨line, live⟩
        have mutex := rolled.lines.locked i
        rw [live, Option.map_some, unlocked_of_returned looked live returned] at mutex
        obtain ⟨now, liveNow, free⟩ := Option.map_eq_some_iff.mp mutex
        refine served_iff liveNow free (fun j below => ?_) own member waits valid
        rw [rolled.lines.deques]
        exact deque_met met live (rolled.threads ▸ below)
      refine ⟨registry, i, w, refusal, looked, refused, rolled, single,
        fun restored => ⟨?_, fun env name d valid => ?_⟩, fun both => ?_⟩
      · rw [← rolled.status c]
        exact restored.ready
      · exact (served env name d valid).mp (restored.serves env name d valid)
      · exact
          { rolled := ⟨refusal, refused, rolled⟩
            single := single
            ready := by
              rw [rolled.status c]
              exact both.1
            serves := fun env name d valid => (served env name d valid).mpr (both.2 env name d valid) }

/-- The id 7 is pending, a worker waits, and connection 2 has used the id too. -/
def takenId : List Input :=
  [.accept 0 ⟨false, false, false⟩, .accept 0 ⟨false, false, false⟩, .accept 0 ⟨false, false, false⟩,
    .recv 0 (ascii "GET /a HTTP/1.1\r\nType: get\r\n\r\n") atRest,
    .recv 1 (ascii "GET /a HTTP/1.1\r\nId: 7\r\n\r\n") atRest,
    .recv 0 (ascii "GET /a HTTP/1.1\r\nType: get\r\n\r\n") atRest,
    .recv 2 (ascii "GET /echo HTTP/1.1\r\nId: 7\r\n\r\n") atRest]

def undoneEnd (c : ConnId) (s : Server) : Option Server :=
  let run := (clientRequest atRest (ascii "a") c).run Action.apply s
  match run.2, run.1.getLast? with
  | .returned t _, some moment => if moment.1.undoes then some t else none
  | _, _ => none

theorem undoneEnd_run (found : undoneEnd c s = some t) :
    ((clientRequest atRest (ascii "a") c).run Action.apply s).2 = .returned t () ∧
      Undone ((clientRequest atRest (ascii "a") c).run Action.apply s).1 := by
  unfold undoneEnd at found
  simp only at found
  split at found
  · rename_i after _ moment returned last
    split at found
    · rename_i undoes
      cases found
      exact ⟨returned, moment, last, undoes⟩
    · cases found
  · cases found

def waitsAlone (s t : Server) : Bool :=
  (match s.registry.getQueue s.threads (ascii "a") false with
    | .returned _ slot => decide (slot = some 0)
    | _ => false) && decide ((s.conns 2).status = .net) && decide (t.threads = 1) && decide (t.workersIn 0 0 = [0]) &&
    !(t.conns 0).freed && decide (0 < (t.conns 0).link)

theorem restored_iff_taken : ∃ s t w, Restored s 2 0 w t := by
  have ran : ((afterAll takenId (Server.new 1 false [] 0)).map fun s =>
      (undoneEnd 2 s).any (waitsAlone s)) = some true := by
    decide +kernel
  obtain ⟨s, afterEq, test⟩ := Option.map_eq_some_iff.mp ran
  cases ended : undoneEnd 2 s with
  | none =>
      rw [ended] at test
      cases test
  | some t =>
      rw [ended, Option.any_some] at test
      simp only [waitsAlone, Bool.and_eq_true, decide_eq_true_eq, Bool.not_eq_true'] at test
      obtain ⟨⟨⟨⟨⟨slot, net⟩, threads⟩, alone⟩, kept⟩, linked⟩ := test
      have met : Met anything s := .between (reachable_afterAll (.new 1 false [] 0) afterEq)
      obtain ⟨returned, undone⟩ := undoneEnd_run ended
      obtain ⟨registry, i, w, refusal, looked, -, rolled, -, restored⟩ :=
        restored_iff atRest (ascii "a") 2 s t met returned undone
      rw [looked] at slot
      have isSlot : i = 0 := Option.some.inj (of_decide_eq_true slot)
      subst isSlot
      refine ⟨s, t, w, restored.mpr ⟨net, fun env name d valid => ?_⟩⟩
      have own : (t.conns d).nloop = 0 := by
        have loop := valid.loop
        omega
      have entries : entriesFor t 0 d = [0] := by
        rw [entriesFor, threads, own, show loopOrder 0 1 = [0] from rfl, List.flatMap_singleton, alone]
      constructor
      · rw [entries, Server.searched, Server.searched, ite_self]
        exact List.forall_mem_singleton.mpr kept
      · rw [entries, Server.yielded, Server.searched, Server.searched, ite_self, List.filter_singleton]
        cases t.wanted (t.conns d).http.requiredWorker 0 with
        | true => exact ⟨linked, trivial⟩
        | false => trivial

/-- Two workers wait, and the first half of a request with a body has come. -/
def halfBody : List Input :=
  [.accept 0 ⟨false, false, false⟩, .accept 0 ⟨false, false, false⟩, .accept 0 ⟨false, false, false⟩,
    .recv 0 (ascii "GET /a HTTP/1.1\r\nType: get\r\n\r\n") atRest,
    .recv 1 (ascii "GET /a HTTP/1.1\r\nType: get\r\n\r\n") atRest,
    .recv 2 (ascii "POST /a HTTP/1.1\r\nId: 7\r\nContent-Length: 2\r\n\r\nb") atRest]

def isCount : Action → Bool
  | .count _ => true
  | _ => false

def pipelined : Input := .recv 2 (ascii "bGET /a HTTP/1.1\r\nId: 7\r\n\r\n") atRest

/-- The pipelined request of a waiting client is refused for the id of its
first one, and the client goes on waiting. -/
theorem refused_waiting_client : ¬ ∀ env name c s t, Met anything s →
    ((clientRequest env name c).run Action.apply s).2 = .returned t () →
    Undone ((clientRequest env name c).run Action.apply s).1 → ∃ i w, Restored s c i w t := by
  intro always
  have ran : (afterAll halfBody (Server.new 1 false [] 0)).map (fun s =>
      decide (pipelined.Enabled s) && (pipelined.run s).1.any fun moment => isCount moment.1 &&
        (undoneEnd 2 moment.2).any fun t => decide ((t.conns 2).status = .clientWaitResult)) = some true := by
    decide +kernel
  obtain ⟨s, afterEq, test⟩ := Option.map_eq_some_iff.mp ran
  rw [Bool.and_eq_true, decide_eq_true_eq] at test
  obtain ⟨moment, inside, call⟩ := List.any_eq_true.mp test.2
  obtain ⟨before, after, split⟩ := List.append_of_mem inside
  have met : Met anything moment.2 :=
    .during pipelined before after moment (reachable_afterAll (.new 1 false [] 0) afterEq) test.1 split
      fun _ _ => trivial
  rw [Bool.and_eq_true] at call
  cases ended : undoneEnd 2 moment.2 with
  | none =>
      rw [ended] at call
      cases call.2
  | some t =>
      obtain ⟨returned, undone⟩ := undoneEnd_run ended
      obtain ⟨i, w, restored⟩ := always atRest (ascii "a") 2 moment.2 t met returned undone
      rw [ended, Option.any_some, decide_eq_true_eq, restored.ready] at call
      cases call.2

end Routine

end Ijson
