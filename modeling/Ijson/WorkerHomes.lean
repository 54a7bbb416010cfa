/-
Where the entries of a worker are.

A worker is listed by its own loop only, and at most once in each queue:
`_add_worker` takes the old entry out before it appends a new one, and a claim
that is taken back puts the entry where it came from.
-/

import Ijson.Homes
import Ijson.Registrations
import Ijson.WorkerSearch

namespace Ijson

open Program

/-- Every entry of a worker is in a deque of its own loop, and the only one there. -/
structure Homed (s : Server) : Prop where
  loops : ∀ w, w < s.accepted → (s.conns w).nloop < s.threads
  single : ∀ i j w, (s.workersIn i j).count w ≤
    if w < s.accepted ∧ (s.conns w).nloop = j then 1 else 0

/-- The worker of an entry belongs to the loop of its deque. -/
theorem Homed.home {s : Server} (homed : Homed s) {i j : Nat} {w : ConnId} (member : w ∈ s.workersIn i j) :
    w < s.accepted ∧ (s.conns w).nloop = j := by
  have positive := List.count_pos_iff.mpr member
  have atMost := homed.single i j w
  by_contra other
  rw [if_neg other] at atMost
  omega

/-- In each queue a worker is listed at most once. -/
theorem Homed.listed {s : Server} (homed : Homed s) (i : Nat) (w : ConnId) : (s.listed i).count w ≤ 1 := by
  have counts : ∀ (queues : List Queue) (k : Nat),
      (∀ (j : Nat) queue, queues[j]? = some queue → queue.workers.count w ≤ if j = k then 1 else 0) →
      (queues.flatMap Queue.workers).count w ≤ 1 := by
    intro queues
    induction queues with
    | nil => exact fun _ _ => Nat.zero_le _
    | cons queue queues ih =>
        intro k each
        rw [List.flatMap_cons, List.count_append]
        have first := each 0 queue rfl
        cases k with
        | zero =>
            have nothing : (queues.flatMap Queue.workers).count w = 0 := by
              refine List.count_eq_zero.mpr fun member => ?_
              obtain ⟨other, isOther, inside⟩ := List.mem_flatMap.mp member
              obtain ⟨j, found⟩ := List.mem_iff_getElem?.mp isOther
              have later := each (j + 1) other found
              have positive := List.count_pos_iff.mpr inside
              rw [if_neg (Nat.succ_ne_zero j)] at later
              omega
            rw [if_pos rfl] at first
            omega
        | succ k =>
            have rest := ih k fun j other found => by
              have later := each (j + 1) other found
              simpa using later
            rw [if_neg (Nat.succ_ne_zero k).symm] at first
            omega
  unfold Server.listed Registry.listed
  cases slot : s.registry.queueList[i]?.join with
  | none => exact Nat.zero_le _
  | some line =>
      refine counts line.queue (s.conns w).nloop fun j queue found => ?_
      have entries : s.workersIn i j = queue.workers := by
        apply Server.workersIn_of_queue
        rw [Server.queue, Server.line, slot]
        exact found
      have atMost := homed.single i j w
      rw [entries] at atMost
      refine Nat.le_trans atMost ?_
      by_cases own : (s.conns w).nloop = j
      · rw [if_pos own.symm]
        split
        · exact Nat.le_refl _
        · exact Nat.zero_le _
      · rw [if_neg fun both => own both.2]
        exact Nat.zero_le _

theorem homed_new (threads : Nat) (jsonrpc2 : Bool) (version : Bytes) (startTime : Nat) :
    Homed (Server.new threads jsonrpc2 version startTime) :=
  { loops := fun w known => absurd known (Nat.not_lt_zero w)
    single := fun _ _ _ => Nat.zero_le _ }

/-! ### One action -/

/-- What is known where an entry or a connection is placed. -/
def Input.Places (input : Input) (action : Action) (s : Server) : Prop :=
  match action with
  | .accept loop garbage => input = .accept loop garbage
  | .register c i => (∃ chunk env, input = .recv c chunk env) ∧ c ∉ s.workersIn i (s.conns c).nloop
  | _ => True

/-- The operation concerns a connection or a loop of the server. -/
def Input.Known (input : Input) (s : Server) : Prop :=
  match input with
  | .accept loop _ => loop < s.threads
  | .recv c _ _ => c < s.accepted
  | _ => True

theorem Input.Enabled.known {input : Input} {s : Server} (enabled : input.Enabled s) : input.Known s := by
  cases input with
  | accept loop garbage => exact enabled
  | recv c chunk env => exact enabled.1.1
  | _ => trivial

theorem Fewer.workers {before after : Registry} {i j : Nat}
    (fewer : Fewer (before.queueAt i j) (after.queueAt i j)) :
    (after.workersIn i j).Sublist (before.workersIn i j) := by
  unfold Registry.workersIn
  cases found : after.queueAt i j with
  | none => exact List.nil_sublist _
  | some queue =>
      rcases fewer queue found with empty | ⟨old, oldEq, workers, _⟩
      · rw [empty]
        exact List.nil_sublist _
      · rw [oldEq]
        exact workers

/-- An action that takes back a claim or does not register anyone adds no entry. -/
theorem writes_workers {action : Action} {s : Server} {registry : Registry} (homed : Homed s)
    (writes : registry ∈ action.writes s) (plain : action.places = false) (i j : Nat) (w : ConnId) :
    (registry.workersIn i j).count w ≤ (s.workersIn i j).count w := by
  have undone : ∀ {k l p}, (registry = (s.eraseWorker k l p).registry ∨ ∃ x queue,
      s.workerAt k l p = some x ∧ (s.eraseWorker k l p).queue k (s.conns x).nloop = some queue ∧
      registry = ((s.eraseWorker k l p).setQueue k (s.conns x).nloop
        { queue with workers := x :: queue.workers }).registry) →
      (registry.workersIn i j).count w ≤ (s.workersIn i j).count w := by
    intro k l p member
    have erased := (eraseWorker_fewer (s := s) k l p i j).workers.count_le w
    rcases member with same | ⟨x, queue, found, live, put⟩
    · rw [same]
      exact erased
    · rw [put, Server.setQueue_workersIn live]
      by_cases place : i = k ∧ j = (s.conns x).nloop
      · rw [Server.workerAt_workersIn] at found
        have home := (homed.home (List.mem_of_getElem? found)).2
        have back := Server.count_eraseIdx found w
        have before := Server.eraseWorker_workersIn (s := s) k l p k (s.conns x).nloop
        rw [Server.workersIn_of_queue live, home, if_pos ⟨rfl, rfl⟩] at before
        rw [if_pos place, List.count_cons, place.1, place.2, home, before, ← back]
        by_cases same : w = x
        · simp [same]
        · simp [same, Ne.symm same]
      · rw [if_neg place]
        exact erased
  have enqueued : ∀ {k l message}, (∃ queue, s.queue k l = some queue ∧ registry = (s.setQueue k l
      { queue with clients := insertMessage message queue.clients }).registry) →
      (registry.workersIn i j).count w ≤ (s.workersIn i j).count w := by
    rintro k l message ⟨queue, live, rfl⟩
    rw [Server.setQueue_workersIn live]
    by_cases place : i = k ∧ j = l
    · rw [if_pos place, place.1, place.2, Server.workersIn_of_queue live]
    · rw [if_neg place]
  cases filled : action.fills with
  | false => exact (writes_fewer writes filled i j).workers.count_le w
  | true =>
      cases action with
      | register => cases plain
      | undoNoId c k l p => exact undone (mem_rolledBack writes)
      | undoCollision c k l p random => exact undone (mem_rolledBack writes)
      | enqueueSync c k name => exact enqueued (mem_changedQueue writes)
      | enqueueAsync c k name => exact enqueued (mem_changedQueue writes)
      | _ => cases filled

theorem registered_single {input : Input} {c : ConnId} {i : Nat} {s : Server} {registry : Registry}
    (homed : Homed s) (known : input.Known s) (places : input.Places (.register c i) s)
    (writes : registry ∈ (Action.register c i).writes s) (k j : Nat) (w : ConnId) :
    (registry.workersIn k j).count w ≤ if w < s.accepted ∧ (s.conns w).nloop = j then 1 else 0 := by
  obtain ⟨⟨chunk, env, isRecv⟩, absent⟩ := places
  have isKnown : c < s.accepted := by
    rw [isRecv] at known
    exact known
  simp only [Action.writes] at writes
  cases live : s.queue i (s.conns c).nloop with
  | none =>
      rw [live] at writes
      cases writes
  | some queue =>
      rw [live] at writes
      rw [List.mem_singleton.mp writes, Server.setQueue_workersIn live]
      by_cases place : k = i ∧ j = (s.conns c).nloop
      · rw [if_pos place, List.count_append, place.2]
        have atMost := homed.single i (s.conns c).nloop w
        rw [Server.workersIn_of_queue live] at absent atMost
        by_cases same : w = c
        · rw [same, List.count_eq_zero.mpr absent, if_pos ⟨isKnown, rfl⟩]
          simp
        · have nothing : [c].count w = 0 := List.count_eq_zero.mpr (by simpa using same)
          rw [nothing]
          exact atMost
      · rw [if_neg place]
        exact homed.single k j w

theorem Homed.step {input : Input} {action : Action} {s : Server} (homed : Homed s)
    (known : input.Known s) (places : input.Places action s) :
    (action.apply s).Ends (fun _ t => Homed t ∧ input.Known t) fun _ t => Homed t ∧ input.Known t := by
  have stays : ∀ t : Server, Grounded s t →
      (∀ i j w, (t.workersIn i j).count w ≤ if w < s.accepted ∧ (s.conns w).nloop = j then 1 else 0) →
      Homed t ∧ input.Known t := by
    intro t grounded single
    refine ⟨⟨fun w isKnown => ?_, fun i j w => ?_⟩, ?_⟩
    · rw [grounded.nloop, grounded.threads]
      rw [grounded.accepted] at isKnown
      exact homed.loops w isKnown
    · rw [grounded.nloop, grounded.accepted]
      exact single i j w
    · cases input with
      | accept loop garbage =>
          rw [Input.Known, grounded.threads]
          exact known
      | recv c chunk env =>
          rw [Input.Known, grounded.accepted]
          exact known
      | _ => trivial
  have wrote := Server.apply_writes s action
  cases plain : action.places with
  | false =>
      have other : ∀ loop garbage, action ≠ .accept loop garbage := by
        intro loop garbage same
        rw [same] at plain
        cases plain
      have grounds := Grounded.apply_grounds s other
      have both := Ends.both wrote grounds
      refine Ends.mono both (fun _ t after => stays t after.2 fun i j w => ?_)
        fun _ t after => stays t after.2 fun i j w => ?_
      · exact Nat.le_trans (writes_workers homed after.1 plain i j w) (homed.single i j w)
      · exact Nat.le_trans (writes_workers homed after.1 plain i j w) (homed.single i j w)
  | true =>
      cases action with
      | accept loop garbage =>
          have isAccept : input = .accept loop garbage := places
          have inRange : loop < s.threads := by
            rw [isAccept] at known
            exact known
          have conns : ∀ x, ((Action.accept loop garbage).apply s).Ends
              (fun _ t => t.conns x = if x = s.accepted then Conn.new loop garbage else s.conns x)
              fun _ _ => True := by
            intro x
            simp only [Action.apply, Ends_returned, Server.set, Function.update_apply]
          have grown : ∀ t : Server, t.registry = s.registry → t.threads = s.threads →
              t.accepted = s.accepted + 1 →
              (∀ x, t.conns x = if x = s.accepted then Conn.new loop garbage else s.conns x) →
              Homed t ∧ input.Known t := by
            intro t registry threads accepted conns
            refine ⟨⟨fun w isKnown => ?_, fun i j w => ?_⟩, ?_⟩
            · rw [conns, threads]
              by_cases new : w = s.accepted
              · rw [if_pos new]
                exact inRange
              · rw [if_neg new]
                exact homed.loops w (by omega)
            · have atMost := homed.single i j w
              rw [Server.workersIn, registry, conns]
              by_cases new : w = s.accepted
              · rw [new, if_neg fun both => Nat.lt_irrefl _ both.1, ← new] at atMost
                exact Nat.le_trans atMost (Nat.zero_le _)
              · rw [if_neg new]
                refine Nat.le_trans atMost ?_
                by_cases own : w < s.accepted ∧ (s.conns w).nloop = j
                · rw [if_pos own, if_pos ⟨by rw [accepted]; exact Nat.lt_succ_of_lt own.1, own.2⟩]
                · rw [if_neg own]
                  exact Nat.zero_le _
            · rw [isAccept, Input.Known, threads]
              exact inRange
          refine grown _ rfl rfl rfl fun x => conns x
      | register c i =>
          have grounds : ((Action.register c i).apply s).Ends (fun _ t => Grounded s t)
              fun _ t => Grounded s t := Grounded.apply_grounds s fun _ _ => Action.noConfusion
          refine Ends.mono (Ends.both wrote grounds) (fun _ t after => stays t after.2 fun k j w => ?_)
            fun _ t after => stays t after.2 fun k j w => ?_
          · exact registered_single homed known places after.1 k j w
          · exact registered_single homed known places after.1 k j w
      | _ => cases plain

/-! ### Runs -/

namespace Routine

variable {guard : Action → Server → Prop} {c : ConnId} {i j : Nat}

/-- `_add_worker` takes the entries of the worker out of its deque. -/
theorem cleanDeque_clears (dropped : ∀ p s, guard (.dropEntry i j p) s) (fuel : Nat)
    (kept rest : List ConnId) {t : Server} (entries : t.workersIn i j = kept ++ rest)
    (enough : rest.length ≤ fuel) (passed : c ∉ kept) (home : (t.conns c).nloop = j) :
    (cleanDeque c i j fuel kept.length).wp Action.apply guard
      (fun _ u => c ∉ u.workersIn i j ∧ (u.conns c).nloop = j) (fun _ _ => True) t := by
  induction fuel generalizing kept rest t with
  | zero =>
      have nothing : rest = [] := by simpa using enough
      rw [nothing, List.append_nil] at entries
      refine ⟨?_, home⟩
      rw [entries]
      exact passed
  | succ fuel ih =>
      rw [cleanDeque, wp_bind, wp_get, Server.workerAt_workersIn, entries]
      cases rest with
      | nil =>
          rw [List.append_nil, List.getElem?_eq_none (Nat.le_refl _)]
          rw [List.append_nil] at entries
          refine ⟨?_, home⟩
          rw [entries]
          exact passed
      | cons w rest =>
          have here : (kept ++ w :: rest)[kept.length]? = some w := by simp
          have fewer : rest.length ≤ fuel := by
            rw [List.length_cons] at enough
            omega
          simp only [here, wp_bind]
          apply use_wp
          split
          · rw [wp_bind, wp_perform]
            refine ⟨dropped _ _, ?_⟩
            have found : t.workerAt i j kept.length = some w := by
              rw [Server.workerAt_workersIn, entries, here]
            simp only [Action.apply, Server.dropEntry, found]
            refine Server.unlink_ends (fun _ => ?_) fun _ => trivial
            refine ih kept rest ?_ fewer passed ?_
            · change (t.eraseWorker i j kept.length).workersIn i j = _
              rw [Server.eraseWorker_workersIn, if_pos ⟨rfl, rfl⟩, entries]
              simp [List.eraseIdx_append_of_length_le]
            · rw [Server.unlinked_conns, Server.eraseWorker_conns]
              exact home
          · rename_i other
            have next := ih (kept ++ [w]) rest (by simpa using entries) fewer (by
              simp only [Bool.or_eq_true, decide_eq_true_eq, not_or] at other
              simpa [passed] using Ne.symm other.2) home
            simpa using next

theorem registerIn_heeds {input : Input} {chunk : Bytes} {env : Env}
    (isRecv : input = .recv c chunk env) (i : Nat) : Heeds input.Places (registerIn c i) := by
  intro s
  rw [registerIn, wp_bind, wp_get]
  simp only
  cases live : s.queue i (s.conns c).nloop with
  | none => trivial
  | some queue =>
      have entries := Server.workersIn_of_queue live
      have enough : (s.workersIn i (s.conns c).nloop).length ≤ queue.workers.length := by rw [entries]
      rw [wp_bind]
      refine wp_mono (cleanDeque_clears (fun _ _ => trivial) queue.workers.length [] _ rfl enough
        List.not_mem_nil rfl) (fun _ u after => ?_) fun _ _ _ => trivial
      rw [wp_bind, wp_perform]
      refine ⟨⟨⟨chunk, env, isRecv⟩, ?_⟩, ?_⟩
      · rw [after.2]
        exact after.1
      · cases (Action.register c i).apply u <;> trivial

end Routine

theorem Input.routine_places (input : Input) (s : Server) :
    (input.routine s).wp Action.apply input.Places (fun _ _ => True) (fun _ _ => True) s := by
  refine Input.routine_heeds (fun action plain t => ?_) (fun loop garbage isAccept _ => isAccept)
    (fun c chunk env isRecv => Routine.registerIn_heeds isRecv) s
  cases action with
  | accept => cases plain
  | register => cases plain
  | _ => trivial

/-- In every run, at every moment, the entries are where they belong. -/
theorem homed_met {assumed : Action → Server → Prop} {s : Server} (met : Met assumed s) : Homed s := by
  have preserved : ∀ (input : Input) (action : Action) (t : Server), input.Places action t →
      anything action t → Homed t ∧ input.Known t →
      (action.apply t).Ends (fun _ u => Homed u ∧ input.Known u) fun _ u => Homed u ∧ input.Known u :=
    fun input action t places _ holds => holds.1.step holds.2 places
  have between : ∀ {t : Server}, Reachable assumed t → Homed t := by
    intro t reachable
    induction reachable with
    | new threads jsonrpc2 version startTime => exact homed_new threads jsonrpc2 version startTime
    | step input before enabled _ returned ih =>
        have ends := run_invariant (preserved input) (Input.routine_places input _)
          ⟨ih, enabled.known⟩ fun _ _ => trivial
        rw [show ((input.routine _).run Action.apply _).2 = _ from returned] at ends
        exact ends.2.1
  cases met with
  | between reachable => exact between reachable
  | during input before after moment reachable enabled split _ =>
      exact (moment_invariant (preserved input) (Input.routine_places input _)
        ⟨between reachable, enabled.known⟩ split fun _ _ => trivial).1.1

end Ijson
