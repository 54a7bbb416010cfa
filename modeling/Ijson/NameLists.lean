/-
A worker on its way through a list of names.

`add_worker` hands every piece of its list to `_add_worker`, also an empty one,
and `_add_worker` creates what it is handed.  The names looked up are the pieces
in their order, and the worker comes to stand once in each of their queues.
-/

import Ijson.QueueNames
import Ijson.TaskDispatch

namespace Ijson

open Program

/-! ### What a call does -/

/-- The worker is handed something, so that it is not registered. -/
def Action.takes : Action → Bool
  | .wake _ => true
  | .giveAsync _ _ _ _ _ => true
  | .giveNoid _ _ _ _ => true
  | .giveId _ _ _ _ _ => true
  | _ => false

/-- An action that leaves the entries of workers as they are. -/
def Action.still (action : Action) : Bool :=
  !action.renames && !action.places && action.claims.isNone

/-- The names `_add_worker` looks up, with the slots it is given. -/
def resolved (moments : List (Action × Server)) : List (Bytes × Nat) := moments.filterMap fun moment =>
  match moment with
  | (.resolve _ name, s) =>
      match s.registry.getQueue s.threads name true with
      | .returned _ (some i) => some (name, i)
      | _ => none
  | _ => none

/-- The slots of the queues a worker is registered in. -/
def registered (moments : List (Action × Server)) : List Nat := moments.filterMap fun moment =>
  match moment with
  | (.register _ i, _) => some i
  | _ => none

theorem resolved_append (first second : List (Action × Server)) :
    resolved (first ++ second) = resolved first ++ resolved second := List.filterMap_append

theorem registered_append (first second : List (Action × Server)) :
    registered (first ++ second) = registered first ++ registered second := List.filterMap_append

theorem writes_sameWorkers {action : Action} {s : Server} {registry : Registry}
    (still : action.still = true) (writes : registry ∈ action.writes s) (i j : Nat) :
    registry.workersIn i j = s.workersIn i j := by
  have lines : ∀ {k : Nat} (change : QueueLine → QueueLine),
      (∀ line, (change line).queue = line.queue) →
      (∃ line, s.line k = some line ∧ registry = (s.setLine k (change line)).registry) →
      registry.workersIn i j = s.workersIn i j := by
    rintro k change same ⟨line, live, rfl⟩
    rw [Server.workersIn, Registry.workersIn, Registry.workersIn, Server.setLine_same live (same line)]
  have messages : ∀ {k l p : Nat}, registry ∈ [(s.eraseMessage k l p).registry] →
      registry.workersIn i j = s.workersIn i j := by
    intro k l p member
    rw [List.mem_singleton.mp member]
    unfold Server.eraseMessage
    cases live : s.queue k l with
    | none => rfl
    | some queue =>
        simp only
        rw [Server.setQueue_workersIn live]
        by_cases place : i = k ∧ j = l
        · rw [if_pos place, place.1, place.2, Server.workersIn_of_queue live]
        · rw [if_neg place]
  cases action with
  | describe k info =>
      exact lines (fun line => { line with
        info := if (Json.unescape info).2.isNone then (Json.unescape info).1 else [] }) (fun _ => rfl)
        (mem_changedLine writes)
  | visit k now => exact lines (fun line => { line with lastWorker := now }) (fun _ => rfl) (mem_changedLine writes)
  | lock k on => exact lines (fun line => { line with locked := on }) (fun _ => rfl) (mem_changedLine writes)
  | leaveList c =>
      simp only [Action.writes] at writes
      cases item : (s.conns c).workerItem with
      | none =>
          rw [item] at writes
          cases writes
      | some k =>
          rw [item] at writes
          exact lines (fun line => { line with workers := line.workers.erase c }) (fun _ => rfl)
            (mem_changedLine writes)
  | subscribe c k name =>
      exact lines (fun line => { line with workers := c :: line.workers }) (fun _ => rfl) (mem_changedLine writes)
  | dropMessage | refuseNoId | refuseCollision | giveAsync | giveNoid | giveId | discard =>
      exact messages writes
  | resolve | create | unhook | register | accept | dropEntry | handAsync | handNoid | handId
  | undoNoId | undoCollision | enqueueSync | enqueueAsync => cases still
  | _ =>
      rw [List.mem_singleton.mp writes]
      rfl

/-- A queue that is looked up has the name, and a new one has no entries. -/
theorem getQueue_sameWorkers {s : Server} {registry : Registry} {name : Bytes} {slot : Option Nat}
    (found : s.registry.getQueue s.threads name true = .returned registry slot) :
    (∀ i j, registry.workersIn i j = s.workersIn i j) ∧
    ∀ i : Nat, registry.queueList[i]?.join.map QueueLine.name = some [] →
      (s.line i).map QueueLine.name = some [] ∨ name = [] := by
  have placed := @Registry.getQueue_placed s.registry s.threads name true
  rw [found] at placed
  constructor
  · intro i j
    rw [Server.workersIn, Registry.workersIn, Registry.workersIn, Registry.queueAt, Registry.queueAt]
    rcases placed i with same | ⟨free, new⟩
    · rw [same]
    · rw [free, new]
      cases queueEq : (QueueLine.new s.threads name).queue[j]? with
      | none => simp [queueEq]
      | some queue =>
          have empty : queue = { workers := [], clients := [] } := by
            have member := List.mem_of_getElem? queueEq
            rw [QueueLine.new] at member
            exact List.eq_of_mem_replicate member
          simp [queueEq, empty]
  · intro i empty
    rcases placed i with same | ⟨_, new⟩
    · rw [same] at empty
      exact Or.inl empty
    · rw [new] at empty
      exact Or.inr (Option.some.inj empty)

/-- An action leaves one of its registries, and connections where they are. -/
theorem apply_leaves (s : Server) (action : Action) (other : ∀ loop garbage, action ≠ .accept loop garbage) :
    (action.apply s).Ends (fun _ t => t.registry ∈ action.writes s ∧ Grounded s t)
      fun _ t => t.registry ∈ action.writes s ∧ Grounded s t :=
  Ends.both (Server.apply_writes s action) (Grounded.apply_grounds s other)

/-- The call under way: it has looked up `names` and still has to register the worker
in `pending`. -/
structure Entering (s : Server) (c : ConnId) (names : List Bytes) (pending : List Nat)
    (now : Recorded Server Action) : Prop where
  home : (now.1.conns c).nloop = (s.conns c).nloop
  threads : now.1.threads = s.threads
  routed : ∃ slots registry, lookUps s.threads names s.registry = some (slots, registry) ∧
    registry.SameNames now.1.registry
  named : (resolved now.2).map Prod.fst = names
  entered : (resolved now.2).map Prod.snd = registered now.2 ++ pending
  once : ∀ i ∈ registered now.2, i ∉ pending → (now.1.workersIn i (s.conns c).nloop).count c = 1
  others : ∀ i j, i ∉ registered now.2 ++ pending ∨ j ≠ (s.conns c).nloop →
    now.1.workersIn i j = s.workersIn i j
  unnamed : ∀ i, (now.1.line i).map QueueLine.name = some [] →
    (s.line i).map QueueLine.name = some [] ∨ [] ∈ names

/-- It was handed something. -/
def Handed (now : Recorded Server Action) : Prop := ∃ moment ∈ now.2, moment.1.takes = true

namespace Entering

variable {s : Server} {c : ConnId} {names : List Bytes} {pending : List Nat} {action : Action}
  {now : Recorded Server Action}

theorem start (s : Server) (c : ConnId) : Entering s c [] [] (s, []) :=
  { home := rfl
    threads := rfl
    routed := ⟨[], s.registry, rfl, .refl _⟩
    named := rfl
    entered := rfl
    once := fun _ member => absurd member List.not_mem_nil
    others := fun _ _ _ => rfl
    unnamed := fun _ empty => Or.inl empty }

theorem rerouted {t : Server} (entering : Entering s c names pending now)
    (alike : now.1.registry.SameNames t.registry) : ∃ slots registry,
      lookUps s.threads names s.registry = some (slots, registry) ∧ registry.SameNames t.registry := by
  obtain ⟨slots, registry, looked, same⟩ := entering.routed
  exact ⟨slots, registry, looked, same.trans alike⟩

theorem grounded {t : Server} (entering : Entering s c names pending now) (grounded : Grounded now.1 t) :
    (t.conns c).nloop = (s.conns c).nloop :=
  (grounded.nloop c).trans entering.home

theorem still_kept (still : action.still = true) :
    Kept Action.apply (fun _ _ => True) (Entering s c names pending) action := by
  have plain : action.renames = false := by
    unfold Action.still at still
    simp only [Bool.and_eq_true, Bool.not_eq_true'] at still
    exact still.1.1
  intro now entering
  have unresolved : resolved [(action, now.1)] = [] := by
    cases action with
    | resolve => cases plain
    | _ => rfl
  have unregistered : registered [(action, now.1)] = [] := by
    cases action with
    | register => cases still
    | _ => rfl
  have kept : ∀ t : Server, t.registry ∈ action.writes now.1 → Grounded now.1 t →
      Entering s c names pending (t, now.2 ++ [(action, now.1)]) := by
    intro t writes grounded
    have same := writes_sameWorkers still writes
    have alike := writes_sameNames plain writes
    exact
      { home := entering.grounded grounded
        threads := grounded.threads.trans entering.threads
        routed := entering.rerouted alike
        named := by rw [resolved_append, unresolved, List.append_nil, entering.named]
        entered := by
          rw [resolved_append, unresolved, registered_append, unregistered, List.append_nil,
            List.append_nil, entering.entered]
        once := fun i member absent => by
          rw [registered_append, unregistered, List.append_nil] at member
          rw [Server.workersIn, same]
          exact entering.once i member absent
        others := fun i j outside => by
          rw [registered_append, unregistered, List.append_nil] at outside
          rw [Server.workersIn, same]
          exact entering.others i j outside
        unnamed := fun i empty => by
          rw [Server.line, alike.line_name] at empty
          exact entering.unnamed i empty }
  refine ⟨trivial, recording_ends ?_⟩
  have other : ∀ loop garbage, action ≠ .accept loop garbage := by
    intro loop garbage isAccept
    rw [isAccept] at still
    cases still
  exact Ends.mono (apply_leaves now.1 action other) (fun _ t after => kept t after.1 after.2)
    fun _ t after => kept t after.1 after.2

theorem resolve_enters (name : Bytes) {registry : Registry} {i : Nat} (entering : Entering s c names [] now)
    (found : now.1.registry.getQueue now.1.threads name true = .returned registry (some i)) :
    (recording Action.apply (.resolve c name) now).Ends (fun _ => Entering s c (names ++ [name]) [i])
      fun _ _ => True := by
  have asks : resolved [(Action.resolve c name, now.1)] = [(name, i)] := by
    simp only [resolved, List.filterMap_cons, found, List.filterMap_nil]
  have same := getQueue_sameWorkers found
  refine recording_ends ?_
  have leaves := apply_leaves now.1 (.resolve c name) fun _ _ => Action.noConfusion
  refine Ends.mono leaves (fun _ t after => ?_) fun _ _ _ => trivial
  have after_eq : t.registry = registry := by
    have member := after.1
    simp only [Action.writes, found, List.mem_singleton] at member
    exact member
  exact
    { home := entering.grounded after.2
      threads := after.2.threads.trans entering.threads
      routed := by
        obtain ⟨slots, middle, looked, names⟩ := entering.routed
        rw [entering.threads] at found
        obtain ⟨last, foundLast, sameLast⟩ := names.getQueue found
        rw [after_eq]
        refine ⟨slots ++ [i], last, lookUps_append.mpr ⟨slots, middle, [i], looked, ?_, rfl⟩, sameLast⟩
        exact lookUps_cons.mpr ⟨i, last, [], foundLast, rfl, rfl⟩
      named := by rw [resolved_append, asks, List.map_append, entering.named]; rfl
      entered := by
        have before := entering.entered
        rw [List.append_nil] at before
        rw [resolved_append, asks, registered_append, List.map_append, before]
        simp [registered]
      once := fun k member absent => by
        rw [registered_append] at member
        have old : k ∈ registered now.2 := by simpa [registered] using member
        rw [Server.workersIn, after_eq, same.1]
        exact entering.once k old List.not_mem_nil
      others := fun k j outside => by
        rw [Server.workersIn, after_eq, same.1]
        refine entering.others k j ?_
        rcases outside with absent | elsewhere
        · rw [registered_append] at absent
          refine Or.inl fun member => absent ?_
          rw [List.append_nil] at member
          exact List.mem_append_left _ (List.mem_append_left _ member)
        · exact Or.inr elsewhere
      unnamed := fun k empty => by
        rw [Server.line, after_eq] at empty
        rcases same.2 k empty with old | isEmpty
        · rcases entering.unnamed k old with before | member
          · exact Or.inl before
          · exact Or.inr (List.mem_append_left _ member)
        · rw [isEmpty]
          exact Or.inr (List.mem_append_right _ (List.mem_singleton_self _)) }

/-- An old entry leaves the deque the worker is about to enter. -/
theorem dropEntry_keeps {i p : Nat} (entering : Entering s c names [i] now) :
    (recording Action.apply (.dropEntry i (s.conns c).nloop p) now).Ends
      (fun _ => Entering s c names [i]) fun _ => Entering s c names [i] := by
  have kept : ∀ t : Server,
      t.registry ∈ (Action.dropEntry i (s.conns c).nloop p).writes now.1 → Grounded now.1 t →
      Entering s c names [i] (t, now.2 ++ [(.dropEntry i (s.conns c).nloop p, now.1)]) := by
    intro t writes grounded
    have alike := writes_sameNames rfl writes
    have same := List.mem_singleton.mp writes
    have elsewhere : ∀ k j, ¬ (k = i ∧ j = (s.conns c).nloop) → t.workersIn k j = now.1.workersIn k j := by
      intro k j other
      have erased := Server.eraseWorker_workersIn (s := now.1) i (s.conns c).nloop p k j
      rw [if_neg other] at erased
      rw [Server.workersIn, same]
      exact erased
    have unregistered : registered (now.2 ++ [(.dropEntry i (s.conns c).nloop p, now.1)]) =
        registered now.2 := by
      rw [registered_append]
      exact List.append_nil _
    have unresolved : resolved (now.2 ++ [(.dropEntry i (s.conns c).nloop p, now.1)]) = resolved now.2 := by
      rw [resolved_append]
      exact List.append_nil _
    exact
      { home := entering.grounded grounded
        threads := grounded.threads.trans entering.threads
        routed := entering.rerouted alike
        named := by rw [unresolved, entering.named]
        entered := by rw [unresolved, unregistered, entering.entered]
        once := fun k member absent => by
          rw [unregistered] at member
          rw [elsewhere k _ fun both => absent (List.mem_singleton.mpr both.1)]
          exact entering.once k member absent
        others := fun k j outside => by
          rw [unregistered] at outside
          rw [elsewhere k j fun both => ?_]
          · exact entering.others k j outside
          · rcases outside with absent | other
            · exact absent (List.mem_append_right _ (List.mem_singleton.mpr both.1))
            · exact other both.2
        unnamed := fun k empty => by
          rw [Server.line, alike.line_name] at empty
          exact entering.unnamed k empty }
  refine recording_ends ?_
  have leaves := apply_leaves now.1 (.dropEntry i (s.conns c).nloop p) fun _ _ => Action.noConfusion
  exact Ends.mono leaves (fun _ t after => kept t after.1 after.2)
    fun _ t after => kept t after.1 after.2

/-- The worker enters the deque, which no longer holds it. -/
theorem register_enters {i : Nat} (entering : Entering s c names [i] now)
    (absent : c ∉ now.1.workersIn i (s.conns c).nloop) :
    (recording Action.apply (.register c i) now).Ends (fun _ => Entering s c names []) fun _ _ => True := by
  refine recording_ends ?_
  have leaves := apply_leaves now.1 (.register c i) fun _ _ => Action.noConfusion
  refine Ends.mono leaves (fun _ t after => ?_) fun _ _ _ => trivial
  have alike := writes_sameNames rfl after.1
  have here : registered (now.2 ++ [(.register c i, now.1)]) = registered now.2 ++ [i] := by
    rw [registered_append]
    rfl
  have unresolved : resolved (now.2 ++ [(.register c i, now.1)]) = resolved now.2 := by
    rw [resolved_append]
    exact List.append_nil _
  have entries : ∀ k j, t.workersIn k j = if k = i ∧ j = (s.conns c).nloop
      then now.1.workersIn i (s.conns c).nloop ++ [c] else now.1.workersIn k j := by
    intro k j
    have writes := after.1
    simp only [Action.writes] at writes
    cases live : now.1.queue i (now.1.conns c).nloop with
    | none =>
        rw [live] at writes
        cases writes
    | some queue =>
        rw [live] at writes
        rw [Server.workersIn, List.mem_singleton.mp writes, Server.setQueue_workersIn live, entering.home]
        rw [entering.home] at live
        rw [Server.workersIn_of_queue live]
  exact
    { home := entering.grounded after.2
      threads := after.2.threads.trans entering.threads
      routed := entering.rerouted alike
      named := by rw [unresolved, entering.named]
      entered := by rw [unresolved, here, List.append_nil, entering.entered]
      once := fun k member _ => by
        rw [here] at member
        rw [entries]
        by_cases same : k = i
        · rw [if_pos ⟨same, rfl⟩, List.count_append, List.count_eq_zero.mpr absent]
          simp
        · rw [if_neg fun both => same both.1]
          have old : k ∈ registered now.2 := by simpa [same] using member
          exact entering.once k old (by simpa using same)
      others := fun k j outside => by
        rw [here, List.append_nil] at outside
        rw [entries, if_neg fun both => ?_]
        · exact entering.others k j outside
        · rcases outside with notIn | other
          · rw [both.1] at notIn
            exact notIn (List.mem_append_right _ (List.mem_singleton_self _))
          · exact other both.2
      unnamed := fun k empty => by
        rw [Server.line, alike.line_name] at empty
        exact entering.unnamed k empty }

end Entering

/-! ### The call -/

namespace Routine

/-- Nothing is asked of the actions. -/
abbrev Acts {α : Type} (routine : Routine α) (now : Recorded Server Action)
    (last : α → Recorded Server Action → Prop) : Prop :=
  routine.recorded.wp (recording Action.apply) (fun _ _ => True) last (fun _ _ => True) now

variable {s : Server} {c : ConnId} {env : Env} {names : List Bytes} {i : Nat}

theorem acts_bind {α β : Type} {routine : Routine α} {rest : α → Routine β} {now : Recorded Server Action}
    {middle : α → Recorded Server Action → Prop} {last : β → Recorded Server Action → Prop}
    (first : Acts routine now middle) (later : ∀ value now, middle value now → Acts (rest value) now last) :
    Acts (routine >>= rest) now last := by
  rw [Acts, recorded_bind, wp_bind]
  exact wp_mono first later fun _ _ _ => trivial

theorem still_acts {α : Type} {routine : Routine α} {pending : List Nat} {now : Recorded Server Action}
    (heeds : Heeds (fun action _ => action.still = true) routine)
    (entering : Entering s c names pending now) :
    Acts routine now fun _ now => Entering s c names pending now := by
  have stays : Stays Action.apply (fun _ _ => True) (Entering s c names pending) routine :=
    Program.Heeds.stays heeds fun action state still entering => Entering.still_kept still state entering
  exact wp_mono (stays now entering) (fun _ _ after => after) fun _ _ _ => trivial

theorem taken_acts {α : Type} {now : Recorded Server Action} (taken : Handed now) (routine : Routine α) :
    Acts routine now fun _ now => Handed now := by
  have kept : ∀ action : Action, Kept Action.apply (fun _ _ => True) Handed action := by
    intro action now taken
    obtain ⟨moment, member, takes⟩ := taken
    have later : ∀ t : Server, Handed (t, now.2 ++ [(action, now.1)]) :=
      fun t => ⟨moment, List.mem_append_left _ member, takes⟩
    refine ⟨trivial, recording_ends ?_⟩
    cases action.apply now.1 with
    | returned t value => exact later t
    | thrown t error => exact later t
    | fault => trivial
  exact wp_mono (stays_of_kept kept routine now taken) (fun _ _ after => after) fun _ _ _ => trivial

theorem takes_acts {action : Action} (takes : action.takes = true) (now : Recorded Server Action) :
    Acts (perform action) now fun _ now => Handed now := by
  rw [Acts, recorded_perform]
  have later : ∀ t : Server, Handed (t, now.2 ++ [(action, now.1)]) :=
    fun t => ⟨(action, now.1), List.mem_append_right _ (List.mem_singleton_self _), takes⟩
  refine ⟨trivial, recording_ends ?_⟩
  cases action.apply now.1 with
  | returned t value => exact later t
  | thrown t error => trivial
  | fault => trivial

theorem passes_still {action : Action} (passes : action.passes = true) : action.still = true := by
  cases action with
  | dropMessage | refuseNoId | refuseCollision => rfl
  | _ => cases passes

theorem release_still : Heeds (fun action _ => action.still = true) release :=
  release_collects fun _ => rfl

theorem registerIn_acts {now : Recorded Server Action} (entering : Entering s c names [i] now) :
    Acts (registerIn c i) now fun result now => result = 0 ∧ Entering s c names [] now := by
  have home := entering.home
  rw [Acts, registerIn, wp_recorded_get]
  simp only
  rw [home]
  cases live : now.1.queue i (s.conns c).nloop with
  | none => trivial
  | some queue =>
      have entries := Server.workersIn_of_queue live
      have enough : (now.1.workersIn i (s.conns c).nloop).length ≤ queue.workers.length := by rw [entries]
      have clears : (cleanDeque c i (s.conns c).nloop queue.workers.length 0).wp Action.apply
          (fun action _ => ∃ p, action = .dropEntry i (s.conns c).nloop p)
          (fun _ u => c ∉ u.workersIn i (s.conns c).nloop ∧ (u.conns c).nloop = (s.conns c).nloop)
          (fun _ _ => True) now.1 :=
        cleanDeque_clears (fun p _ => ⟨p, rfl⟩) queue.workers.length [] _ rfl enough List.not_mem_nil home
      have keeps : ∀ (action : Action) (now : Recorded Server Action),
          (∃ p, action = .dropEntry i (s.conns c).nloop p) → Entering s c names [i] now →
          (recording Action.apply action now).Ends (fun _ => Entering s c names [i])
            fun _ => Entering s c names [i] := by
        intro action now isDrop entering
        obtain ⟨p, same⟩ := isDrop
        rw [same]
        exact entering.dropEntry_keeps
      have cleaned := wp_keeping keeps (wp_recorded clears now.2) entering
      refine acts_bind (wp_mono (wp_weaken cleaned fun _ _ _ => trivial) (fun _ _ after => after)
        fun _ _ _ => trivial) fun _ now after => ?_
      rw [Acts, wp_recorded_perform]
      refine ⟨trivial, ?_⟩
      exact Ends.mono (after.2.register_enters after.1.1) (fun _ _ entered => ⟨rfl, entered⟩)
        fun _ _ _ => trivial

theorem give_acts (j p : Nat) (last : Bool) (now : Recorded Server Action) :
    Acts (give env c i j p last) now fun _ now => Handed now := by
  rw [Acts, give, wp_recorded_get]
  cases now.1.messageAt i j p with
  | none => trivial
  | some message =>
      simp only
      split
      · exact acts_bind (takes_acts rfl now) fun _ now taken => taken
      · split
        · exact acts_bind (takes_acts rfl now) fun _ now taken => taken
        · exact acts_bind (takes_acts rfl now) fun _ now taken => taken

/-- What a step of the call comes to: a hand-over, or one more registration. -/
def Entered (s : Server) (c : ConnId) (names : List Bytes) (result : Int) (now : Recorded Server Action) : Prop :=
  Handed now ∨ result = 0 ∧ Entering s c names [] now

theorem serve_acts (name : Bytes) (last : Bool) {now : Recorded Server Action}
    (entering : Entering s c names [i] now) :
    Acts (serve env name c i last) now (Entered s c names) := by
  have subscribed : ∀ (result : Int) (now : Recorded Server Action), Entered s c names result now →
      Acts (do
        let s ← get
        let worker := s.conns c
        if worker.workerItem.isNone &&
            (worker.workerMode || worker.noid || worker.status = .workerWaitJob) then
          perform (.subscribe c i name)
        return result) now (Entered s c names) := by
    intro result now entered
    rw [Acts, wp_recorded_get]
    simp only
    split
    · rcases entered with taken | ⟨zero, entering⟩
      · exact acts_bind (taken_acts taken _) fun _ now taken => Or.inl taken
      · have subscribes : Heeds (fun action _ => action.still = true) (perform (.subscribe c i name)) :=
          heeds_perform fun _ => rfl
        exact acts_bind (still_acts subscribes entering) fun _ now entering => Or.inr ⟨zero, entering⟩
    · exact entered
  have searched : Heeds (fun action _ => action.still = true)
      (findMessageIn env c i (loopOrder (now.1.conns c).nloop now.1.threads)) :=
    findMessageIn_passes (fun action passes _ => passes_still passes) c i _
  unfold serve
  rw [Acts, wp_recorded_get]
  refine acts_bind (still_acts searched entering) fun place now entering => ?_
  cases place with
  | none =>
      exact acts_bind (registerIn_acts entering) fun result now after => subscribed result now (Or.inr after)
  | some place =>
      exact acts_bind (give_acts place.1 place.2 last now) fun result now taken =>
        subscribed result now (Or.inl taken)

/-- The part of `_add_worker` behind the lookup. -/
theorem visited_acts (name : Bytes) (last : Bool) {now : Recorded Server Action}
    (entering : Entering s c names [i] now) :
    Acts (do
      perform (.visit i (env.now now.1.tick))
      guardLine i
      perform (.lock i true)
      let result ← (serve env name c i last).catching fun error => do
        release
        throw error
      perform (.lock i false)
      release
      return result) now (Entered s c names) := by
  have quiet : ∀ {α : Type} {routine : Routine α} {result : Int} {now : Recorded Server Action},
      Heeds (fun action _ => action.still = true) routine → Entered s c names result now →
      Acts routine now fun _ now => Entered s c names result now := by
    intro α routine result now heeds entered
    rcases entered with taken | ⟨zero, entering⟩
    · exact wp_mono (taken_acts taken routine) (fun _ _ taken => Or.inl taken) fun _ _ _ => trivial
    · exact wp_mono (still_acts heeds entering) (fun _ _ entering => Or.inr ⟨zero, entering⟩)
        fun _ _ _ => trivial
  have performs : ∀ {action : Action}, action.still = true →
      Heeds (fun action _ => action.still = true) (perform action) := fun still => heeds_perform fun _ => still
  refine acts_bind (still_acts (performs rfl) entering) fun _ now entering => ?_
  refine acts_bind (still_acts (guardLine_heeds i) entering) fun _ now entering => ?_
  refine acts_bind (still_acts (performs rfl) entering) fun _ now entering => ?_
  have caught : Acts ((serve env name c i last).catching fun error => do
      release
      throw error) now (Entered s c names) := by
    rw [Acts, recorded_catching, wp_catching]
    refine wp_mono (serve_acts name last entering) (fun _ _ after => after) fun error now _ => ?_
    have kept : ∀ action : Action, Kept Action.apply (fun _ _ => True) (fun _ => True) action := by
      intro action now _
      refine ⟨trivial, ?_⟩
      cases recording Action.apply action now <;> trivial
    have released : Acts release now fun _ _ => True := stays_of_kept kept release now trivial
    exact acts_bind released fun _ _ _ => trivial
  refine acts_bind caught fun result now entered => ?_
  refine acts_bind (quiet (performs rfl) entered) fun _ now entered => ?_
  exact acts_bind (quiet release_still entered) fun _ now entered => entered

theorem addWorkerTo_acts (piece : Bytes) (last : Bool) {now : Recorded Server Action}
    (entering : Entering s c names [] now) :
    Acts (addWorkerTo env piece c last) now (Entered s c (names ++ [unslashed piece])) := by
  have performs : ∀ {action : Action}, action.still = true →
      Heeds (fun action _ => action.still = true) (perform action) := fun still => heeds_perform fun _ => still
  unfold addWorkerTo
  extract_lets name
  have cut : name = unslashed piece := rfl
  rw [Acts, wp_recorded_get]
  extract_lets found worker
  cases foundEq : now.1.registry.getQueue now.1.threads name true with
  | thrown registry error =>
      have same : found = .thrown registry error := foundEq
      rw [same, wp_recorded_perform]
      refine ⟨trivial, recording_ends ?_⟩
      simp only [Action.apply, Server.resolve, foundEq]
      trivial
  | fault =>
      have same : found = .fault := foundEq
      rw [same, wp_recorded_perform]
      refine ⟨trivial, recording_ends ?_⟩
      simp only [Action.apply, Server.resolve, foundEq]
      trivial
  | returned registry slot =>
      have same : found = .returned registry slot := foundEq
      rw [same, wp_recorded_perform]
      cases slot with
      | none =>
          refine ⟨trivial, recording_ends ?_⟩
          simp only [Action.apply, Server.resolve, foundEq]
          trivial
      | some i =>
          refine ⟨trivial, Ends.mono (entering.resolve_enters name foundEq) (fun _ now entering => ?_)
            fun _ _ _ => trivial⟩
          rw [← cut]
          simp -zeta only
          extract_lets serving leaving naming
          have served : ∀ (u : Unit) (now : Recorded Server Action), Entering s c (names ++ [name]) [i] now →
              Acts (serving u) now (Entered s c (names ++ [name])) := by
            intro u now entering
            unfold serving
            rw [Acts, wp_recorded_get]
            split
            · exact acts_bind (takes_acts rfl now) fun _ now taken => Or.inl taken
            · exact visited_acts name last entering
          have left : ∀ (u : Unit) (now : Recorded Server Action), Entering s c (names ++ [name]) [i] now →
              Acts (leaving u) now (Entered s c (names ++ [name])) := by
            intro u now entering
            unfold leaving
            split
            · refine acts_bind (still_acts (performs rfl) entering) fun _ now entering => ?_
              exact acts_bind (still_acts (performs rfl) entering) served
            · exact served () now entering
          have named : ∀ (u : Unit) (now : Recorded Server Action), Entering s c (names ++ [name]) [i] now →
              Acts (naming u) now (Entered s c (names ++ [name])) := by
            intro u now entering
            unfold naming
            split
            · exact acts_bind (still_acts (performs rfl) entering) left
            · exact left () now entering
          split
          · exact acts_bind (still_acts (performs rfl) entering) named
          · exact named () now entering

theorem addWorkerLoop_acts (list : List Bytes) {now : Recorded Server Action}
    (entering : Entering s c names [] now) :
    Acts (addWorkerLoop env c list) now fun _ now =>
      Handed now ∨ Entering s c (names ++ list.map unslashed) [] now := by
  have finished : ∀ {names : List Bytes} {now : Recorded Server Action}, Entering s c names [] now →
      Acts (perform (.finish c)) now fun _ now => Entering s c names [] now := fun entering =>
    still_acts (heeds_perform fun _ => rfl) entering
  induction list generalizing names now with
  | nil =>
      rw [List.map_nil, List.append_nil]
      exact wp_mono (finished entering) (fun _ _ after => Or.inr after) fun _ _ _ => trivial
  | cons piece rest ih =>
      rw [addWorkerLoop]
      refine acts_bind (addWorkerTo_acts piece rest.isEmpty entering) fun result now entered => ?_
      rcases entered with taken | ⟨zero, entering⟩
      · exact wp_mono (taken_acts taken _) (fun _ _ after => Or.inl after) fun _ _ _ => trivial
      · rw [if_neg (by rw [zero]; decide)]
        have later := ih entering
        rw [List.append_assoc] at later
        exact later

theorem addWorker_acts (env : Env) (list : Bytes) (s : Server) (c : ConnId) :
    Acts (addWorker env list c) (s, []) fun _ now =>
      Handed now ∨ Entering s c ((pieces list []).map unslashed) [] now := by
  have begun : Acts (perform (.beginAdd c)) (s, []) fun _ now => Entering s c [] [] now :=
    still_acts (heeds_perform fun _ => rfl) (Entering.start s c)
  exact acts_bind begun fun _ now entering => addWorkerLoop_acts _ entering

end Routine

/-- A call that hands the worker nothing has gone through all pieces. -/
theorem addWorker_enters {env : Env} {list : Bytes} {c : ConnId} {s t : Server}
    (returned : ((Routine.addWorker env list c).run Action.apply s).2 = .returned t ())
    (untaken : ∀ moment ∈ ((Routine.addWorker env list c).run Action.apply s).1, moment.1.takes = false) :
    Entering s c ((Routine.pieces list []).map unslashed) []
      (t, ((Routine.addWorker env list c).run Action.apply s).1) := by
  have ends := outcome_recorded (Routine.addWorker_acts env list s c)
  rw [returned, List.nil_append] at ends
  rcases ends with ⟨moment, member, takes⟩ | entering
  · rw [untaken moment member] at takes
    cases takes
  · exact entering

end Ijson
