/-
The search of `client_request` for a worker.

Entries of workers that are closed or no longer wait are taken out of the
deques on the way; the waiting ones stay, whether they are passed over or not.
-/

import Ijson.TaskOrder
import Ijson.Disconnects

namespace Ijson

open Program

/-! ### The entries of a queue -/

/-- The worker entries of loop `j` in slot `i`. -/
def Registry.workersIn (registry : Registry) (i j : Nat) : List ConnId :=
  match registry.queueAt i j with
  | none => []
  | some queue => queue.workers

/-- The worker entries of all loops in slot `i`. -/
def Registry.listed (registry : Registry) (i : Nat) : List ConnId :=
  match registry.queueList[i]?.join with
  | none => []
  | some line => line.queue.flatMap Queue.workers

namespace Server

variable {s t : Server}

def workersIn (s : Server) (i j : Nat) : List ConnId := s.registry.workersIn i j

def listed (s : Server) (i : Nat) : List ConnId := s.registry.listed i

/-- The worker is open and waits for a job. -/
def idle (s : Server) (w : ConnId) : Bool :=
  !(s.conns w).closed && decide ((s.conns w).status = .workerWaitJob)

theorem workersIn_of_queue {i j : Nat} {queue : Queue} (queueEq : s.queue i j = some queue) :
    s.workersIn i j = queue.workers := by
  rw [workersIn, Registry.workersIn, ← queue_eq, queueEq]

theorem workerAt_workersIn (s : Server) (i j p : Nat) : s.workerAt i j p = (s.workersIn i j)[p]? := by
  unfold workerAt
  cases found : s.queue i j with
  | none =>
      rw [workersIn, Registry.workersIn, ← queue_eq, found]
      rfl
  | some queue =>
      rw [workersIn_of_queue found]
      rfl

theorem setQueue_workersIn {i j : Nat} {old : Queue} (live : s.queue i j = some old) (new : Queue)
    (i' j' : Nat) : (s.setQueue i j new).registry.workersIn i' j' =
      if i' = i ∧ j' = j then new.workers else s.workersIn i' j' := by
  unfold workersIn Registry.workersIn
  rw [setQueue_queueAt live]
  by_cases same : i' = i ∧ j' = j
  · rw [if_pos same, if_pos same]
  · rw [if_neg same, if_neg same]

theorem count_set_flatMap {α β : Type} [DecidableEq β] (f : α → List β) {list : List α} {j : Nat}
    {old new : α} (found : list[j]? = some old) (x : β) :
    ((list.set j new).flatMap f).count x + (f old).count x =
      (list.flatMap f).count x + (f new).count x := by
  induction list generalizing j with
  | nil => cases found
  | cons first list ih =>
      cases j with
      | zero =>
          cases found
          simp only [List.set_cons_zero, List.flatMap_cons, List.count_append]
          omega
      | succ j =>
          have rest := ih (j := j) (by simpa using found)
          simp only [List.set_cons_succ, List.flatMap_cons, List.count_append]
          omega

theorem setQueue_listed {i j : Nat} {old : Queue} (live : s.queue i j = some old) (new : Queue)
    (w : ConnId) : ((s.setQueue i j new).registry.listed i).count w + old.workers.count w =
      (s.listed i).count w + new.workers.count w := by
  unfold queue at live
  unfold setQueue listed
  cases lineEq : s.line i with
  | none =>
      rw [lineEq] at live
      cases live
  | some line =>
      rw [lineEq] at live
      have inside : i < s.registry.queueList.length := by
        by_contra outside
        rw [Server.line, List.getElem?_eq_none (by omega)] at lineEq
        cases lineEq
      have here : s.registry.queueList[i]?.join = some line := lineEq
      simp only [Registry.listed, setLine, List.getElem?_set_self inside, Option.join_some, here]
      exact count_set_flatMap Queue.workers live w

theorem eraseWorker_eq (s : Server) (i j p : Nat) :
    s.eraseWorker i j p = { s with registry := (s.eraseWorker i j p).registry } := by
  unfold eraseWorker
  cases s.queue i j with
  | none => rfl
  | some queue =>
      simp only
      unfold setQueue
      cases s.line i <;> rfl

theorem filter_eraseIdx {α : Type} {test : α → Bool} {list : List α} {p : Nat} {element : α}
    (found : list[p]? = some element) (fails : test element = false) :
    (list.eraseIdx p).filter test = list.filter test := by
  induction list generalizing p with
  | nil => rfl
  | cons first list ih =>
      cases p with
      | zero =>
          cases found
          rw [List.eraseIdx_cons_zero, List.filter_cons, if_neg (by simp [fails])]
      | succ p =>
          rw [List.eraseIdx_cons_succ, List.filter_cons, List.filter_cons, ih (by simpa using found)]

theorem count_eraseIdx {α : Type} [DecidableEq α] {list : List α} {p : Nat} {element : α}
    (found : list[p]? = some element) (x : α) :
    (list.eraseIdx p).count x + (if x = element then 1 else 0) = list.count x := by
  induction list generalizing p with
  | nil => cases found
  | cons first list ih =>
      cases p with
      | zero =>
          cases found
          rw [List.eraseIdx_cons_zero, List.count_cons]
          by_cases same : x = element
          · simp [same]
          · simp [same, Ne.symm same]
      | succ p =>
          rw [List.eraseIdx_cons_succ, List.count_cons, List.count_cons, ← ih (by simpa using found)]
          omega

theorem eraseWorker_workersIn (i j p i' j' : Nat) : (s.eraseWorker i j p).workersIn i' j' =
    if i' = i ∧ j' = j then (s.workersIn i j).eraseIdx p else s.workersIn i' j' := by
  unfold eraseWorker
  cases live : s.queue i j with
  | none =>
      have empty : s.workersIn i j = [] := by
        rw [workersIn, Registry.workersIn, ← queue_eq, live]
      by_cases same : i' = i ∧ j' = j
      · rw [if_pos same, same.1, same.2, empty]
        rfl
      · rw [if_neg same]
  | some queue =>
      simp only
      rw [workersIn, setQueue_workersIn live, workersIn_of_queue live]

/-- An entry that is erased is listed once less. -/
theorem eraseWorker_listed {i j p : Nat} {w : ConnId} (found : s.workerAt i j p = some w) (x : ConnId) :
    ((s.eraseWorker i j p).listed i).count x + (if x = w then 1 else 0) = (s.listed i).count x := by
  unfold eraseWorker
  cases live : s.queue i j with
  | none =>
      rw [workerAt, live] at found
      cases found
  | some queue =>
      have entry : queue.workers[p]? = some w := by
        rw [workerAt, live] at found
        exact found
      have counts := setQueue_listed live { queue with workers := queue.workers.eraseIdx p } x
      have fewer := count_eraseIdx entry x
      simp only [listed] at counts ⊢
      omega

/-- The queues have the same deques, and their mutexes are held as before. -/
structure SameLines (s t : Server) : Prop where
  deques : ∀ i j, (t.queue i j).isSome = (s.queue i j).isSome
  locked : ∀ i, (t.line i).map QueueLine.locked = (s.line i).map QueueLine.locked

theorem SameLines.trans {u : Server} (one : SameLines s t) (two : SameLines t u) : SameLines s u where
  deques i j := (two.deques i j).trans (one.deques i j)
  locked i := (two.locked i).trans (one.locked i)

theorem SameLines.of_registry (same : t.registry = s.registry) : SameLines s t where
  deques i j := by rw [queue_eq, same]; rfl
  locked i := by rw [line, same]; rfl

theorem setQueue_sameLines (s : Server) (i j : Nat) (queue : Queue) : SameLines s (s.setQueue i j queue) := by
  cases live : s.line i with
  | none => exact .of_registry (by rw [setQueue, live])
  | some line =>
      have inside : i < s.registry.queueList.length := by
        by_contra outside
        rw [Server.line, List.getElem?_eq_none (by omega)] at live
        cases live
      have lines : ∀ i', (s.setQueue i j queue).line i' =
          if i = i' then some { line with queue := line.queue.set j queue } else s.line i' := by
        intro i'
        rw [setQueue, live]
        by_cases same : i = i'
        · subst same
          simp [Server.line, setLine, inside]
        · simp only [Server.line, setLine, List.getElem?_set_ne same, if_neg same]
      constructor
      · intro i' j'
        rw [Server.queue, Server.queue, lines]
        by_cases same : i = i'
        · rw [if_pos same, ← same, live, Option.bind_some, Option.bind_some, Bool.eq_iff_iff,
            isSome_getElem?, isSome_getElem?, List.length_set]
        · rw [if_neg same]
      · intro i'
        rw [lines]
        by_cases same : i = i'
        · rw [if_pos same, ← same, live]
          rfl
        · rw [if_neg same]

theorem eraseWorker_sameLines (s : Server) (i j p : Nat) : SameLines s (s.eraseWorker i j p) := by
  unfold eraseWorker
  cases s.queue i j with
  | none => exact .of_registry rfl
  | some queue => exact setQueue_sameLines s i j _

/-- The client asks for any worker, or for this one. -/
def wanted (s : Server) (required : Bytes) (w : ConnId) : Bool :=
  required.isEmpty || decide (required = (s.conns w).http.connectionId)

/-- Entries that do not wait have left the deques of slot `i`, and their counts
went down by as much. -/
structure Culled (s t : Server) (i : Nat) : Prop where
  conn : ∀ x, t.conns x = { s.conns x with link := (t.conns x).link }
  link : ∀ x, s.idle x = true → (t.conns x).link = (s.conns x).link
  waitResponse : t.waitResponse = s.waitResponse
  generated : t.generated = s.generated
  log : t.log = s.log
  threads : t.threads = s.threads
  jsonrpc2 : t.jsonrpc2 = s.jsonrpc2
  tasks : ∀ i' j', t.tasks i' j' = s.tasks i' j'
  elsewhere : ∀ i' j', i' ≠ i → t.workersIn i' j' = s.workersIn i' j'
  waiting : ∀ j, (t.workersIn i j).filter s.idle = (s.workersIn i j).filter s.idle
  count : ∀ x, s.idle x = true → (t.listed i).count x = (s.listed i).count x
  fewer : ∀ x, (t.listed i).count x ≤ (s.listed i).count x
  lines : SameLines s t

theorem Culled.refl (s : Server) (i : Nat) : Culled s s i :=
  { conn := fun _ => rfl
    link := fun _ _ => rfl
    waitResponse := rfl
    generated := rfl
    log := rfl
    threads := rfl
    jsonrpc2 := rfl
    tasks := fun _ _ => rfl
    elsewhere := fun _ _ _ => rfl
    waiting := fun _ => rfl
    count := fun _ _ => rfl
    fewer := fun _ => Nat.le_refl _
    lines := .of_registry rfl }

theorem Culled.idle {i : Nat} (culled : Culled s t i) (x : ConnId) : t.idle x = s.idle x := by
  unfold Server.idle
  rw [culled.conn x]

theorem Culled.drop {i j p : Nat} {w : ConnId} (culled : Culled s t i)
    (found : t.workerAt i j p = some w) (stale : s.idle w = false) :
    Culled s ((t.eraseWorker i j p).unlinked w) i := by
  have different : ∀ x, s.idle x = true → x ≠ w := by
    intro x waits same
    rw [same, stale] at waits
    cases waits
  have entries : ∀ i' j', ((t.eraseWorker i j p).unlinked w).workersIn i' j' =
      (t.eraseWorker i j p).workersIn i' j' := fun _ _ => rfl
  have lists : ((t.eraseWorker i j p).unlinked w).listed i = (t.eraseWorker i j p).listed i := rfl
  have whole := eraseWorker_eq t i j p
  refine
    { conn := fun x => ?_
      link := fun x waits => ?_
      waitResponse := ?_
      generated := ?_
      log := ?_
      threads := ?_
      jsonrpc2 := ?_
      tasks := fun i' j' => ?_
      elsewhere := fun i' j' other => ?_
      waiting := fun j' => ?_
      count := fun x waits => ?_
      fewer := fun x => ?_
      lines := (culled.lines.trans (eraseWorker_sameLines t i j p)).trans (.of_registry rfl) }
  · rw [unlinked_conns, eraseWorker_conns, culled.conn x]
  · rw [unlinked_conns, if_neg (different x waits), eraseWorker_conns]
    exact culled.link x waits
  · rw [whole]
    exact culled.waitResponse
  · rw [whole]
    exact culled.generated
  · rw [whole]
    exact culled.log
  · rw [whole]
    exact culled.threads
  · rw [whole]
    exact culled.jsonrpc2
  · rw [← culled.tasks i' j']
    exact eraseWorker_tasks i j p i' j'
  · rw [entries, eraseWorker_workersIn, if_neg (fun both => other both.1)]
    exact culled.elsewhere i' j' other
  · rw [← culled.waiting j', entries, eraseWorker_workersIn]
    by_cases here : j' = j
    · rw [if_pos ⟨rfl, here⟩, here]
      rw [workerAt_workersIn] at found
      exact filter_eraseIdx found stale
    · rw [if_neg fun both => here both.2]
  · have counts := eraseWorker_listed found x
    rw [if_neg (different x waits)] at counts
    rw [lists, ← culled.count x waits]
    exact counts
  · have counts := eraseWorker_listed found x
    have before := culled.fewer x
    rw [lists]
    omega

end Server

namespace Routine

variable {i j : Nat} {s t : Server} {required : Bytes}

/-- A waiting worker of the wanted kind stands at a position. -/
def Found (s t : Server) (i : Nat) (required : Bytes) (j p : Nat) : Prop :=
  ∃ w, t.workerAt i j p = some w ∧ s.idle w = true ∧ s.wanted required w = true

/-- No worker of loop `j` will do. -/
def Lacks (s t : Server) (i : Nat) (required : Bytes) (j : Nat) : Prop :=
  ∀ w ∈ t.workersIn i j, s.idle w = true → s.wanted required w = false

theorem findWorker_culled (fuel : Nat) (kept rest : List ConnId) (culled : Server.Culled s t i)
    (entries : t.workersIn i j = kept ++ rest) (enough : rest.length ≤ fuel)
    (passed : ∀ w ∈ kept, s.idle w = true → s.wanted required w = false) :
    (findWorker i j required fuel kept.length).wp Action.apply unchecked
      (fun found u => Server.Culled s u i ∧ match found with
        | some p => Found s u i required j p
        | none => Lacks s u i required j) (fun _ _ => True) t := by
  induction fuel generalizing kept rest t with
  | zero =>
      have nothing : rest = [] := by simpa using enough
      rw [nothing, List.append_nil] at entries
      refine ⟨culled, ?_⟩
      simp only
      intro w member
      rw [entries] at member
      exact passed w member
  | succ fuel ih =>
      rw [findWorker, wp_bind, wp_get, Server.workerAt_workersIn, entries]
      cases rest with
      | nil =>
          rw [List.append_nil, List.getElem?_eq_none (Nat.le_refl _)]
          rw [List.append_nil] at entries
          refine ⟨culled, ?_⟩
          simp only
          intro w member
          rw [entries] at member
          exact passed w member
      | cons w rest =>
          have here : (kept ++ w :: rest)[kept.length]? = some w := by simp
          have found : t.workerAt i j kept.length = some w := by
            rw [Server.workerAt_workersIn, entries, here]
          have fewer : rest.length ≤ fuel := by
            rw [List.length_cons] at enough
            omega
          have worker := culled.idle w
          have named : (t.conns w).http.connectionId = (s.conns w).http.connectionId := by
            rw [culled.conn w]
          simp only [here, wp_bind]
          apply use_wp
          cases mine : s.wanted required w with
          | false =>
              have test : (!required.isEmpty &&
                  decide (required ≠ (t.conns w).http.connectionId)) = true := by
                simpa [Server.wanted, named] using mine
              rw [if_pos test]
              have next := ih (kept ++ [w]) rest culled (by simpa using entries) fewer fun x member => by
                rcases List.mem_append.mp member with old | new
                · exact passed x old
                · rw [List.mem_singleton.mp new]
                  exact fun _ => mine
              simpa using next
          | true =>
              have test : ¬ (!required.isEmpty &&
                  decide (required ≠ (t.conns w).http.connectionId)) = true := by
                simpa [Server.wanted, named, or_iff_not_imp_left] using mine
              rw [if_neg test]
              cases waits : s.idle w with
              | true =>
                  have stays : ¬ ((t.conns w).closed || decide ((t.conns w).status ≠ .workerWaitJob)) =
                      true := by
                    rw [waits, Server.idle] at worker
                    simpa using worker
                  rw [if_neg stays]
                  exact ⟨culled, w, found, waits, mine⟩
              | false =>
                  have leaves : ((t.conns w).closed || decide ((t.conns w).status ≠ .workerWaitJob)) =
                      true := by
                    rw [waits, Server.idle] at worker
                    cases closed : (t.conns w).closed with
                    | true => rfl
                    | false => simpa [closed] using worker
                  rw [if_pos leaves, wp_bind, wp_perform]
                  refine ⟨trivial, ?_⟩
                  simp only [Action.apply, Server.dropEntry, found]
                  refine Server.unlink_ends (fun _ => ?_) fun _ => trivial
                  have dropped := culled.drop found waits
                  have erased : ((t.eraseWorker i j kept.length).unlinked w).workersIn i j =
                      kept ++ rest := by
                    change (t.eraseWorker i j kept.length).workersIn i j = _
                    rw [Server.eraseWorker_workersIn, if_pos ⟨rfl, rfl⟩, entries]
                    simp [List.eraseIdx_append_of_length_le]
                  exact ih kept rest dropped erased fewer passed

theorem findWorkerIn_culled (required : Bytes) (loops : List Nat) (culled : Server.Culled s t i) :
    (findWorkerIn i required loops).wp Action.apply unchecked
      (fun found u => Server.Culled s u i ∧ match found with
        | some (j, p) => j ∈ loops ∧ Found s u i required j p
        | none => ∀ j ∈ loops, Lacks s s i required j) (fun _ _ => True) t := by
  induction loops generalizing t with
  | nil => exact ⟨culled, List.forall_mem_nil _⟩
  | cons j loops ih =>
      rw [findWorkerIn, wp_bind, wp_get]
      cases live : t.queue i j with
      | none => trivial
      | some queue =>
          simp only [wp_bind]
          have entries := Server.workersIn_of_queue live
          have enough : (t.workersIn i j).length ≤ queue.workers.length := by rw [entries]
          refine wp_mono (findWorker_culled queue.workers.length [] (t.workersIn i j) culled rfl enough
            (List.forall_mem_nil _)) (fun found u after => ?_) fun _ _ _ => trivial
          cases found with
          | some p => exact ⟨after.1, List.mem_cons_self, after.2⟩
          | none =>
              have lacks : Lacks s s i required j := by
                intro w member waits
                have kept : w ∈ (u.workersIn i j).filter s.idle := by
                  rw [after.1.waiting j]
                  exact List.mem_filter.mpr ⟨member, waits⟩
                exact after.2 w (List.mem_filter.mp kept).1 waits
              refine wp_mono (ih after.1) (fun found v later => ?_) fun _ _ _ => trivial
              cases found with
              | some place =>
                  exact ⟨later.1, List.mem_cons_of_mem j later.2.1, later.2.2⟩
              | none => exact ⟨later.1, List.forall_mem_cons.mpr ⟨lacks, later.2⟩⟩

end Routine

end Ijson
