/-
What the routines of an operation keep.

`Sustains` lists what has to be checked of single actions for a fact to survive the
operations of a connection: the quiet actions at any point, and the others
where the code performs them.
-/

import Ijson.Recording
import Ijson.Subscriptions
import Ijson.Machine

namespace Ijson

open Program

/-- A state of the server with the moments before it. -/
abbrev Traced : Type := Recorded Server Action

/-- Quiet actions may come at any point. -/
def Still (guard : Action → Traced → Prop) (fact : Traced → Prop) : Prop :=
  ∀ action : Action, action.quiet = true → Kept Action.apply guard fact action

/-- The moment has been, and nobody has subscribed since. -/
def Since (moment : Action × Server) (state : Traced) : Prop :=
  ∃ front tail, state.2 = front ++ moment :: tail ∧
    ∀ later ∈ tail, ∀ c i name, later.1 ≠ .subscribe c i name

theorem Since.append {moment : Action × Server} {state : Traced} (since : Since moment state)
    {action : Action} (other : ∀ c i name, action ≠ .subscribe c i name) (s t : Server) :
    Since moment (t, state.2 ++ [(action, s)]) := by
  obtain ⟨front, tail, split, silent⟩ := since
  refine ⟨front, tail ++ [(action, s)], by simp [split], fun m member => ?_⟩
  rcases List.mem_append.mp member with old | new
  · exact silent m old
  · rw [List.mem_singleton.mp new]
    exact other

theorem since_now (action : Action) (s t : Server) (past : List (Action × Server)) :
    Since (action, s) (t, past ++ [(action, s)]) :=
  ⟨past, [], rfl, fun m member => by cases member⟩

theorem quiet_joins {action : Action} (quiet : action.quiet = true) (c : ConnId) (i : Nat)
    (name : Bytes) : action ≠ .subscribe c i name := by
  intro same
  rw [same] at quiet
  cases quiet

namespace Still

variable {guard : Action → Traced → Prop} {fact : Traced → Prop}

/-- What is known of the subscriptions stays known. -/
theorem subscriptions (still : Still guard fact) (known : Subscriptions → Prop) :
    Still guard fun state => fact state ∧ known state.1.subscriptions := by
  intro action quiet state holds
  obtain ⟨now, later⟩ := still action quiet state holds.1
  refine ⟨now, ?_⟩
  have same := Server.apply_subscribes quiet state.1
  unfold recording at later ⊢
  cases applied : action.apply state.1 with
  | returned t value =>
      rw [applied] at same
      simp only [applied] at later ⊢
      exact ⟨later, (congrArg known (show t.subscriptions = _ from same)).mpr holds.2⟩
  | thrown t error =>
      rw [applied] at same
      simp only [applied] at later ⊢
      exact ⟨later, (congrArg known (show t.subscriptions = _ from same)).mpr holds.2⟩
  | fault => trivial

theorem performed (still : Still guard fact) {action : Action} (quiet : action.quiet = true)
    (s : Server) : Leads Action.apply guard (fun now => fact now ∧ now.1 = s)
      (fun now => fact now ∧ Since (action, s) now) (perform action : Program Server Action Exc Unit) := by
  refine leads_perform fun state holds => ?_
  obtain ⟨now, later⟩ := still action quiet state holds.1
  refine ⟨now, ?_⟩
  have since : ∀ t, Since (action, s) (t, state.2 ++ [(action, state.1)]) := by
    intro t
    rw [holds.2]
    exact since_now action s t state.2
  unfold recording at later ⊢
  cases applied : action.apply state.1 with
  | returned t value =>
      simp only [applied] at later ⊢
      exact ⟨later, since t⟩
  | thrown t error =>
      simp only [applied] at later ⊢
      exact ⟨later, since t⟩
  | fault => trivial

theorem since (still : Still guard fact) (moment : Action × Server) :
    Still guard fun state => fact state ∧ Since moment state := by
  intro action quiet state holds
  obtain ⟨now, later⟩ := still action quiet state holds.1
  refine ⟨now, ?_⟩
  have more : ∀ t, Since moment (t, state.2 ++ [(action, state.1)]) :=
    holds.2.append (quiet_joins quiet) state.1
  unfold recording at later ⊢
  cases applied : action.apply state.1 with
  | returned t value =>
      simp only [applied] at later ⊢
      exact ⟨later, more t⟩
  | thrown t error =>
      simp only [applied] at later ⊢
      exact ⟨later, more t⟩
  | fault => trivial

end Still

namespace Routine

variable {guard : Action → Traced → Prop} {fact : Traced → Prop} {env : Env} {c : ConnId}

/-- The routine keeps the fact. -/
abbrev Keeps {α : Type} (guard : Action → Traced → Prop) (fact : Traced → Prop) (routine : Routine α) : Prop :=
  Stays Action.apply guard fact routine

/-! ### Routines of quiet actions -/

theorem use_keeps {failed : Traced → Prop} (d : ConnId) :
    Tries Action.apply guard fact fact failed (use d) := by
  refine leads_look fun s => ?_
  split
  · exact leads_fault
  · exact leads_pure _ fun _ holds => holds

theorem useAll_keeps (workers : List ConnId) : Keeps guard fact (useAll workers) := by
  induction workers with
  | nil => exact stays_pure _
  | cons w rest ih => exact (use_keeps w).bind fun _ => ih

theorem guardLine_keeps (i : Nat) : Keeps guard fact (guardLine i) := by
  refine leads_look fun s => ?_
  cases s.line i with
  | none => exact stays_fault
  | some line =>
      simp only
      split
      · exact stays_fault
      · exact stays_pure _

theorem option_keeps (c : ConnId) : Keeps guard fact (option c) := by
  refine leads_look fun s => ?_
  simp only
  cases (s.conns c).http.headerOption with
  | none => exact stays_pure _
  | some view =>
      simp only
      cases view.place with
      | array => exact stays_pure _
      | block number =>
          simp only
          split
          · exact stays_pure _
          · exact stays_fault

theorem eachDeque_keeps {visit : Nat → Nat → Queue → Routine Unit}
    (visited : ∀ i j queue, Keeps guard fact (visit i j queue)) (deques : List (Nat × Nat)) :
    Keeps guard fact (eachDeque visit deques) := by
  induction deques with
  | nil => exact stays_pure _
  | cons deque deques ih =>
      obtain ⟨i, j⟩ := deque
      rw [eachDeque]
      refine leads_look fun s => ?_
      extract_lets next
      have later : ∀ u, Keeps guard fact (next u) := fun _ => ih
      cases s.queue i j with
      | none => exact later ()
      | some queue => exact (visited i j queue).bind later

section Quiet

variable (still : Still guard fact)

include still

theorem quiet_keeps {action : Action} (quiet : action.quiet = true) :
    Keeps guard fact (perform action) := (still action quiet).stays

theorem findWorker_keeps (i j : Nat) (required : Bytes) (fuel p : Nat) :
    Keeps guard fact (findWorker i j required fuel p) := by
  induction fuel generalizing p with
  | zero => exact stays_pure _
  | succ fuel ih =>
      rw [findWorker]
      refine leads_look fun s => ?_
      cases s.workerAt i j p with
      | none => exact stays_pure _
      | some w =>
          refine (use_keeps w).bind fun worker => ?_
          split
          · exact ih (p + 1)
          · split
            · exact (quiet_keeps still rfl).bind fun _ => ih p
            · exact stays_pure _

theorem findWorkerIn_keeps (i : Nat) (required : Bytes) (loops : List Nat) :
    Keeps guard fact (findWorkerIn i required loops) := by
  induction loops with
  | nil => exact stays_pure _
  | cons j loops ih =>
      rw [findWorkerIn]
      refine leads_look fun s => ?_
      cases s.queue i j with
      | none => exact stays_fault
      | some queue =>
          refine (findWorker_keeps still i j required _ 0).bind fun found => ?_
          cases found with
          | none => exact ih
          | some p => exact stays_pure _

theorem handSync_keeps (c : ConnId) (i j p : Nat) (name : Bytes) :
    Keeps guard fact (handSync env c i j p name) := by
  refine leads_look fun s => ?_
  cases s.workerAt i j p with
  | none => exact stays_fault
  | some w =>
      simp only
      split
      · exact quiet_keeps still rfl
      · cases s.takeId c (env.random s.generated) with
        | none => exact quiet_keeps still rfl
        | some taken =>
            simp only
            split
            · exact quiet_keeps still rfl
            · exact quiet_keeps still rfl

theorem clientRequest_keeps (name : Bytes) (c : ConnId) :
    Keeps guard fact (clientRequest env name c) := by
  rw [clientRequest]
  refine (quiet_keeps still rfl).bind fun _ => leads_look fun s => ?_
  split
  · exact stays_fault
  · exact stays_throw _
  · exact quiet_keeps still rfl
  · rename_i i _
    refine (guardLine_keeps i).bind fun _ => ?_
    refine (findWorkerIn_keeps still i _ _).bind fun found => ?_
    cases found with
    | some place =>
        simp only
        split
        · exact (quiet_keeps still rfl).bind fun _ => quiet_keeps still rfl
        · exact handSync_keeps still c i _ _ name
    | none =>
        refine (option_keeps c).bind fun option => leads_look fun t => ?_
        cases t.line i with
        | none => exact stays_fault
        | some line =>
            simp only
            split
            · exact quiet_keeps still rfl
            · split
              · exact (quiet_keeps still rfl).bind fun _ => quiet_keeps still rfl
              · exact quiet_keeps still rfl

theorem findMessage_keeps (c : ConnId) (i j fuel p : Nat) :
    Keeps guard fact (findMessage env c i j fuel p) := by
  induction fuel generalizing p with
  | zero => exact stays_pure _
  | succ fuel ih =>
      rw [findMessage]
      refine leads_look fun s => ?_
      cases s.messageAt i j p with
      | none => exact stays_pure _
      | some message =>
          simp only
          split
          · exact ih (p + 1)
          · cases message.conn with
            | none => exact stays_pure _
            | some d =>
                refine (use_keeps d).bind fun client => ?_
                split
                · exact (quiet_keeps still rfl).bind fun _ => ih p
                · split
                  · exact stays_pure _
                  · cases s.takeId d (env.random s.generated) with
                    | none => exact (quiet_keeps still rfl).bind fun _ => ih p
                    | some taken =>
                        simp only
                        split
                        · exact (quiet_keeps still rfl).bind fun _ => ih p
                        · exact stays_pure _

theorem findMessageIn_keeps (c : ConnId) (i : Nat) (loops : List Nat) :
    Keeps guard fact (findMessageIn env c i loops) := by
  induction loops with
  | nil => exact stays_pure _
  | cons j loops ih =>
      rw [findMessageIn]
      refine leads_look fun s => ?_
      cases s.queue i j with
      | none => exact stays_fault
      | some queue =>
          refine (findMessage_keeps still c i j _ 0).bind fun found => ?_
          cases found with
          | none => exact ih
          | some p => exact stays_pure _

theorem release_keeps : Keeps guard fact release := by
  have whole : ∀ fuel, Keeps guard fact (collectAll fuel) := by
    intro fuel
    induction fuel with
    | zero => exact stays_pure _
    | succ fuel ih => exact (quiet_keeps still rfl).bind fun _ => ih
  exact leads_look fun s => whole _

theorem cleanDeque_keeps (c : ConnId) (i j fuel p : Nat) :
    Keeps guard fact (cleanDeque c i j fuel p) := by
  induction fuel generalizing p with
  | zero => exact stays_pure _
  | succ fuel ih =>
      rw [cleanDeque]
      refine leads_look fun s => ?_
      cases s.workerAt i j p with
      | none => exact stays_pure _
      | some w =>
          refine (use_keeps w).bind fun conn => ?_
          split
          · exact (quiet_keeps still rfl).bind fun _ => ih p
          · exact ih (p + 1)

theorem give_keeps (c : ConnId) (i j p : Nat) (last : Bool) :
    Keeps guard fact (give env c i j p last) := by
  refine leads_look fun s => ?_
  cases s.messageAt i j p with
  | none => exact stays_fault
  | some message =>
      simp only
      split
      · exact (quiet_keeps still rfl).bind fun _ => stays_pure _
      · split
        · exact (quiet_keeps still rfl).bind fun _ => stays_pure _
        · exact (quiet_keeps still rfl).bind fun _ => stays_pure _

theorem registerIn_keeps (c : ConnId) (i : Nat) : Keeps guard fact (registerIn c i) := by
  refine leads_look fun s => ?_
  simp only
  cases s.queue i (s.conns c).nloop with
  | none => exact stays_fault
  | some queue =>
      refine (cleanDeque_keeps still c i _ _ 0).bind fun _ => ?_
      exact (quiet_keeps still rfl).bind fun _ => stays_pure _

theorem workerResult_keeps (id : Bytes) (worker : Option ConnId) :
    Keeps guard fact (workerResult id worker) := by
  refine leads_look fun s => ?_
  cases s.waiting id with
  | none => exact stays_pure _
  | some d =>
      refine (use_keeps d).bind fun client => ?_
      exact (quiet_keeps still rfl).bind fun _ => stays_pure _

theorem workerResultNoid_keeps (c : ConnId) : Keeps guard fact (workerResultNoid c) := by
  refine leads_look fun s => ?_
  cases (s.conns c).client with
  | none => exact (quiet_keeps still rfl).bind fun _ => stays_pure _
  | some d =>
      refine (use_keeps d).bind fun client => ?_
      exact (quiet_keeps still rfl).bind fun _ => stays_pure _

theorem rpcAddLoop_keeps (c : ConnId) (fuel : Nat) : Keeps guard fact (rpcAddLoop c fuel) := by
  induction fuel with
  | zero => exact stays_pure _
  | succ fuel ih =>
      rw [rpcAddLoop]
      refine leads_look fun s => ?_
      cases (s.conns c).http.json.scan with
      | error error => exact stays_throw _
      | ok found =>
          obtain ⟨json, more⟩ := found
          refine (quiet_keeps still rfl).bind fun _ => ?_
          extract_lets rest name
          have goesOn : ∀ u, Keeps guard fact (rest u) := fun _ => ih
          split
          · exact stays_pure _
          · split
            · refine (quiet_keeps still rfl).bind fun _ => ?_
              cases name.2 with
              | some error => exact (stays_throw error).bind goesOn
              | none => exact goesOn ()
            · split
              · exact (quiet_keeps still rfl).bind goesOn
              · split
                · split
                  · exact (quiet_keeps still rfl).bind goesOn
                  · split
                    · exact (quiet_keeps still rfl).bind goesOn
                    · exact goesOn ()
                · exact goesOn ()

theorem rpcCallLoop_keeps (c : ConnId) (fuel : Nat) (method id params : Bytes) :
    Keeps guard fact (rpcCallLoop c fuel method id params) := by
  induction fuel generalizing method id params with
  | zero => exact stays_pure _
  | succ fuel ih =>
      rw [rpcCallLoop]
      refine leads_look fun s => ?_
      cases (s.conns c).http.json.scan with
      | error error => exact stays_throw _
      | ok found =>
          obtain ⟨json, more⟩ := found
          refine (quiet_keeps still rfl).bind fun _ => ?_
          split
          · exact stays_pure _
          · split
            · exact ih _ _ _
            · split
              · exact (quiet_keeps still rfl).bind fun _ => ih _ _ _
              · split
                · exact ih _ _ _
                · exact ih _ _ _

theorem rpcResult_keeps (c : ConnId) (id : Bytes) : Keeps guard fact (rpcResult c id) := by
  refine leads_look fun s => ?_
  extract_lets json found
  cases found with
  | error error => exact stays_throw _
  | ok pair =>
      obtain ⟨json, value⟩ := pair
      refine (quiet_keeps still rfl).bind fun _ => ?_
      extract_lets id
      split
      · exact quiet_keeps still rfl
      · refine (quiet_keeps still rfl).bind fun _ => ?_
        refine (workerResult_keeps still id (some c)).bind fun result => ?_
        split
        · exact quiet_keeps still rfl
        · split
          · exact quiet_keeps still rfl
          · exact quiet_keeps still rfl

theorem serve_leads (join : ∀ i name, Leads Action.apply guard
      (fun state => fact state ∧ (state.1.conns c).workerItem = none ∧
        (state.1.conns c).directMessage = []) fact (perform (.subscribe c i name) : Routine Unit))
    (name : Bytes) (i : Nat) (last : Bool) :
    Leads Action.apply guard (fun state => fact state ∧ (state.1.conns c).directMessage = []) fact
      (serve env name c i last) := by
  have empty := still.subscriptions fun v => (v.subscriber c).pending = []
  unfold serve
  refine leads_get fun s => ?_
  refine Leads.bind ((findMessageIn_keeps empty c i _).mono (fun _ holds => holds.1)
    fun _ holds => holds) (fun place => ?_) fun _ holds => holds.1
  extract_lets subscribed
  have goesOn : ∀ result, Leads Action.apply guard
      (fun state => fact state ∧ (state.1.subscriptions.subscriber c).pending = []) fact
      (subscribed result) := by
    intro result
    refine leads_get fun t => ?_
    extract_lets worker rest
    have ends : ∀ u, Keeps guard fact (rest u) := fun u => stays_pure result
    split
    · rename_i test
      refine Leads.bind ?_ ends fun _ holds => holds
      refine (join i name).mono (fun state holds => ⟨holds.1.1, ?_, holds.1.2⟩) fun _ holds => holds
      rw [holds.2]
      simp only [Bool.and_eq_true, Option.isNone_iff_eq_none] at test
      exact test.1
    · exact (ends ()).mono (fun _ holds => holds.1.1) fun _ holds => holds
  cases place with
  | some place =>
      exact Leads.bind (give_keeps empty c i _ _ last) goesOn fun _ holds => holds.1
  | none => exact Leads.bind (registerIn_keeps empty c i) goesOn fun _ holds => holds.1

end Quiet

end Routine

/-- What is to be checked of the actions of `c` that are not quiet. -/
structure Sustains (env : Env) (c : ConnId) (guard : Action → Traced → Prop) (fact : Traced → Prop) : Prop where
  still : Still guard fact
  mode : ∀ on, Kept Action.apply guard fact (.workerMode c on)
  join : ∀ i name, Leads Action.apply guard
    (fun state => fact state ∧ (state.1.conns c).workerItem = none ∧
      (state.1.conns c).directMessage = []) fact (perform (.subscribe c i name) : Routine Unit)
  away : ∀ s key, (s.conns c).workerMode = false → (s.conns c).workerItem.isSome = true →
    (s.conns c).workerSubName ≠ key → Leads Action.apply guard
      (fun state => fact state ∧ Since (.resolve c key, s) state) fact
      (perform (.leaveList c) >>= fun _ => perform (.dropDirects c) : Routine Unit)
  stop : ∀ s, (s.conns c).workerMode = true → Leads Action.apply guard
    (fun state => fact state ∧ Since (.complete c, s) state) fact
    (perform (.leaveList c) : Routine Unit)
  pub : ∀ name, Routine.Keeps guard fact (Routine.pub name c)
  remove : ∀ key, Routine.Keeps guard fact (Routine.deleteQueue key)

namespace Sustains

variable {env : Env} {c : ConnId} {guard : Action → Traced → Prop} {fact : Traced → Prop} (sustains : Sustains env c guard fact)

include sustains

open Routine

theorem quiet {action : Action} (quiet : action.quiet = true) : Keeps guard fact (perform action) :=
  quiet_keeps sustains.still quiet

/-- What `_add_worker` does once the connection is where it belongs. -/
theorem serving_keeps (name : Bytes) (i : Nat) (last : Bool) :
    Keeps guard fact (do
      let s ← get
      if !(s.conns c).directMessage.isEmpty then
        perform (.wake c)
        return 1
      perform (.visit i (env.now s.tick))
      guardLine i
      perform (.lock i true)
      let result ← (serve env name c i last).catching fun error => do
        release
        throw error
      perform (.lock i false)
      release
      return result) := by
  refine leads_get fun t => ?_
  split
  · refine Leads.mono ?_ (fun _ holds => holds.1) fun _ holds => holds
    exact (sustains.quiet rfl).bind fun _ => stays_pure _
  · rename_i test
    have nothing : (t.conns c).directMessage = [] := by simpa using test
    have empty := sustains.still.subscriptions fun v => (v.subscriber c).pending = []
    refine Leads.bind ((quiet_keeps empty rfl).mono (fun state holds => ⟨holds.1, ?_⟩)
      fun _ holds => holds) (fun _ => ?_) fun _ holds => holds.1
    · change (state.1.conns c).directMessage = []
      rw [holds.2, nothing]
    · refine Leads.bind (guardLine_keeps i) (fun _ => ?_) fun _ holds => holds.1
      refine Leads.bind (quiet_keeps empty rfl) (fun _ => ?_) fun _ holds => holds.1
      refine Leads.bind ?_ (fun result => ?_) fun _ holds => holds
      · refine (serve_leads sustains.still sustains.join name i last).catching fun error => ?_
        exact (release_keeps sustains.still).bind fun _ => stays_throw error
      · exact (sustains.quiet rfl).bind fun _ => (release_keeps sustains.still).bind fun _ => stays_pure _

theorem addWorkerTo_keeps (piece : Bytes) (last : Bool) :
    Keeps guard fact (addWorkerTo env piece c last) := by
  unfold addWorkerTo
  extract_lets name
  refine leads_get fun s => ?_
  extract_lets found worker
  refine Leads.bind (sustains.still.performed rfl s) (fun _ => ?_) fun _ holds => holds.1
  have since := sustains.still.since (.resolve c name, s)
  cases found with
  | thrown registry error => exact stays_fault.mono (fun _ holds => holds) fun _ holds => holds.1
  | fault => exact stays_fault.mono (fun _ holds => holds) fun _ holds => holds.1
  | returned registry slot =>
      cases slot with
      | none => exact stays_fault.mono (fun _ holds => holds) fun _ holds => holds.1
      | some i =>
          simp -zeta only
          extract_lets serving leaving naming
          have served : ∀ u, Keeps guard fact (serving u) := fun _ => sustains.serving_keeps name i last
          have left : ∀ u, Leads Action.apply guard
              (fun state => fact state ∧ Since (.resolve c name, s) state) fact (leaving u) := by
            intro u
            unfold leaving
            split
            · rename_i test
              simp only [Bool.and_eq_true, Bool.not_eq_true', decide_eq_true_eq] at test
              have moved := sustains.away s name test.1.1 test.1.2 test.2
              exact moved.bind served fun _ holds => holds
            · exact (served ()).mono (fun _ holds => holds.1) fun _ holds => holds
          have named : ∀ u, Leads Action.apply guard
              (fun state => fact state ∧ Since (.resolve c name, s) state) fact (naming u) := by
            intro u
            unfold naming
            split
            · exact Leads.bind (quiet_keeps since rfl) left fun _ holds => holds.1
            · exact left ()
          split
          · exact Leads.bind (quiet_keeps since rfl) named fun _ holds => holds.1
          · exact named ()

theorem addWorker_keeps (name : Bytes) : Keeps guard fact (addWorker env name c) := by
  have loop : ∀ names, Keeps guard fact (addWorkerLoop env c names) := by
    intro names
    induction names with
    | nil => exact sustains.quiet rfl
    | cons piece rest ih =>
        refine (sustains.addWorkerTo_keeps piece _).bind fun result => ?_
        split
        · exact sustains.quiet rfl
        · exact ih
  exact (sustains.quiet rfl).bind fun _ => loop _

theorem rpcAdd_keeps : Keeps guard fact (rpcAdd env c) := by
  refine leads_look fun s => (rpcAddLoop_keeps sustains.still c _).bind fun _ => leads_look fun t => ?_
  extract_lets conn adding
  have added : ∀ u, Keeps guard fact (adding u) := fun _ => sustains.addWorker_keeps _
  split
  · exact (sustains.mode false).stays.bind fun _ => sustains.quiet rfl
  · split
    · exact (sustains.quiet rfl).bind added
    · exact added ()

theorem withQueueName_keeps (path : Bytes) {change : Bytes → Routine Unit}
    (changed : ∀ name, Keeps guard fact (change name)) : Keeps guard fact (withQueueName c path change) := by
  unfold withQueueName
  split
  · exact sustains.quiet rfl
  · exact (changed _).bind fun _ => sustains.quiet rfl

theorem callMethod_keeps (method id : Bytes) : Keeps guard fact (callMethod env c method id) := by
  unfold callMethod
  split
  · exact (sustains.mode true).stays.bind fun _ => sustains.rpcAdd_keeps
  · split
    · exact sustains.rpcAdd_keeps
    · split
      · exact rpcResult_keeps sustains.still c id
      · split
        · exact leads_look fun s => (useAll_keeps _).bind fun _ => sustains.quiet rfl
        · split
          · exact leads_look fun s => sustains.quiet rfl
          · refine (option_keeps c).bind fun option => (sustains.quiet rfl).bind fun _ => ?_
            exact clientRequest_keeps sustains.still method c

theorem untyped_keeps : Keeps guard fact (untyped env c) := by
  refine leads_look fun s => ?_
  extract_lets http
  split
  · refine (rpcCallLoop_keeps sustains.still c _ _ _ _).bind fun found => ?_
    obtain ⟨method, id, params⟩ := found
    simp -zeta only
    extract_lets method called
    have answered : ∀ u, Keeps guard fact (called u) := by
      intro u
      unfold called
      split
      · exact sustains.quiet rfl
      · exact sustains.callMethod_keeps method id
    split
    · exact (sustains.quiet rfl).bind answered
    · exact answered ()
  · exact sustains.callMethod_keeps _ _

theorem typed_keeps (http : Http) : Keeps guard fact (typed env c http) := by
  refine (sustains.quiet rfl).bind fun _ => ?_
  extract_lets name
  cases http.type with
  | none => exact sustains.quiet rfl
  | get => exact sustains.rpcAdd_keeps
  | getPlus => exact (sustains.quiet rfl).bind fun _ => sustains.rpcAdd_keeps
  | worker => exact (sustains.mode true).stays.bind fun _ => sustains.rpcAdd_keeps
  | async =>
      exact (sustains.quiet rfl).bind fun _ => clientRequest_keeps sustains.still name c
  | pub => exact sustains.pub name
  | result => exact rpcResult_keeps sustains.still c _
  | create => exact sustains.withQueueName_keeps _ fun name => sustains.quiet rfl
  | del => exact sustains.withQueueName_keeps _ sustains.remove

theorem headerCompleted_keeps : Keeps guard fact (headerCompleted env c) := by
  refine leads_here fun s => ?_
  have still := sustains.still.subscriptions fun v => (v.subscriber c).mode = (s.conns c).workerMode
  have completed := still.performed (show (Action.complete c).quiet = true from rfl) s
  have known : ∀ now, (fact now ∧ now.1 = s) → ((fact now ∧
      (now.1.subscriptions.subscriber c).mode = (s.conns c).workerMode) ∧ now.1 = s) := by
    intro now holds
    refine ⟨⟨holds.1, ?_⟩, holds.2⟩
    rw [holds.2]
    rfl
  unfold headerCompleted
  refine Leads.bind (completed.mono known fun _ holds => holds) (fun _ => ?_) fun _ holds => holds.1.1
  refine leads_get fun t => ?_
  have weaker : ∀ {program : Routine Unit}, Keeps guard fact program → Leads Action.apply guard
      (fun now => ((fact now ∧ (now.1.subscriptions.subscriber c).mode = (s.conns c).workerMode) ∧
        Since (.complete c, s) now) ∧ now.1 = t) fact program :=
    fun keeps => keeps.mono (fun _ holds => holds.1.1.1) fun _ holds => holds
  extract_lets conn stopped asked
  split
  · exact weaker (sustains.quiet rfl)
  · split
    · rename_i mode
      refine leads_here fun u => ?_
      by_cases worker : (s.conns c).workerMode = true
      · have stop := sustains.stop s worker
        have since := sustains.still.since (.complete c, s)
        have stoppedOk : ∀ u, Keeps guard fact (stopped u) := fun _ =>
          (sustains.mode false).stays.bind fun _ => sustains.quiet rfl
        have askedOk : ∀ u, Leads Action.apply guard (fun now => fact now ∧ Since (.complete c, s) now)
            fact (asked u) := by
          intro u
          unfold asked
          refine Leads.bind (option_keeps c) (fun option => ?_) fun _ holds => holds.1
          split
          · split
            · exact Leads.bind stop stoppedOk fun _ holds => holds
            · exact (stoppedOk ()).mono (fun _ holds => holds.1) fun _ holds => holds
          · exact sustains.rpcAdd_keeps.mono (fun _ holds => holds.1) fun _ holds => holds
        refine Leads.mono (?_ : Leads _ guard (fun now => fact now ∧ Since (.complete c, s) now) fact _)
          (fun _ holds => ⟨holds.1.1.1.1, holds.1.1.2⟩) fun _ holds => holds
        split
        · exact Leads.bind (workerResultNoid_keeps since c) (fun _ => askedOk ()) fun _ holds => holds.1
        · exact askedOk ()
      · intro now holds
        have same : (t.conns c).workerMode = (s.conns c).workerMode := by
          rw [← holds.1.2]
          exact holds.1.1.1.2
        rw [← same] at worker
        exact absurd mode worker
    · split
      · split
        · exact weaker (sustains.quiet rfl)
        · refine weaker ((workerResultNoid_keeps sustains.still c).bind fun result => ?_)
          split
          · exact sustains.quiet rfl
          · exact sustains.quiet rfl
      · refine weaker ((sustains.quiet rfl).bind fun _ => ?_)
        split
        · exact sustains.typed_keeps _
        · exact sustains.untyped_keeps

end Sustains

/-- The same for a whole operation of `c`, which may end with the connection
closed; `rest` is what holds between operations. -/
structure SustainsOperation (env : Env) (c : ConnId) (guard : Action → Traced → Prop) (fact rest : Traced → Prop) : Prop extends
    Sustains env c guard fact where
  weaker : ∀ state, fact state → rest state
  calm : Still guard rest
  start : ∀ taken line state, fact state → guard (.begin c taken line) state ∧
    (recording Action.apply (.begin c taken line) state).Ends
      (fun _ now => fact now ∨ rest now ∧ (now.1.conns c).closed = true) fun _ => rest
  shut : Kept Action.apply guard rest (.shut c)
  close : Routine.Keeps guard rest (Routine.close c)

namespace SustainsOperation

variable {env : Env} {c : ConnId} {guard : Action → Traced → Prop} {fact rest : Traced → Prop}
  (sustains : SustainsOperation env c guard fact rest)

include sustains

open Routine

theorem quiet {action : Action} (quiet : action.quiet = true) : Keeps guard fact (perform action) :=
  quiet_keeps sustains.still quiet

theorem leads {α : Type} {routine : Routine α} (keeps : Keeps guard fact routine) :
    Leads Action.apply guard fact rest routine :=
  keeps.mono (fun _ holds => holds) sustains.weaker

theorem answering_keeps {completed : Routine Unit} (keeps : Keeps guard fact completed) :
    Keeps guard fact (answering completed c) := by
  refine keeps.catching fun error => ?_
  split
  · exact sustains.quiet rfl
  · exact stays_throw error

theorem keepRest_keeps (cursor : Cursor) : Keeps guard fact (keepRest c cursor) := by
  refine leads_look fun s => ?_
  cases cursor.place with
  | array => exact sustains.quiet rfl
  | block number =>
      cases (s.conns c).http.buffer.addOwn cursor.data with
      | none => exact stays_fault
      | some buffer => exact sustains.quiet rfl

/-- The request line; the connection may be closed by it. -/
theorem begin_leads {taken line : Bytes} {next : Unit → Routine Unit}
    (goesOn : ∀ u, Leads Action.apply guard fact rest (next u)) :
    Leads Action.apply guard fact rest (do
      perform (.begin c taken line)
      let s ← get
      if (s.conns c).closed then return
      next ()) := by
  intro state holds
  rw [recorded_bind, wp_bind, recorded_perform]
  obtain ⟨now, ends⟩ := sustains.start taken line state holds
  refine ⟨now, Ends.mono ends (fun _ after outcome => ?_) fun _ _ ended => ended⟩
  change (if (after.1.conns c).closed = true then _ else _ : Routine Unit).recorded.wp _ _ _ _ after
  by_cases closed : (after.1.conns c).closed = true
  · rw [if_pos closed]
    exact outcome.elim (sustains.weaker after) And.left
  · rw [if_neg closed]
    refine goesOn () after (outcome.resolve_right fun ended => closed ended.2)

theorem readLines_leads {completed : Routine Unit} (keeps : Keeps guard fact completed) (fuel : Nat)
    (cursor : Cursor) : Leads Action.apply guard fact rest (readLines env completed c fuel cursor) := by
  induction fuel generalizing cursor with
  | zero => exact sustains.leads stays_fault
  | succ fuel ih =>
      rw [readLines]
      cases popLine cursor.data with
      | none =>
          refine leads_look fun s => ?_
          split
          · exact sustains.leads (sustains.keepRest_keeps cursor)
          · exact sustains.leads (stays_pure _)
      | some popped =>
          obtain ⟨raw, left⟩ := popped
          simp -zeta only
          extract_lets line after
          refine leads_look fun s => ?_
          extract_lets http length behind body checked
          have taken : ∀ u, Leads Action.apply guard fact rest (body u) := by
            intro u
            refine Leads.bind (sustains.quiet rfl) (fun _ => ?_) sustains.weaker
            refine leads_look fun t => ?_
            split
            · refine Leads.bind (sustains.answering_keeps keeps) (fun _ => ?_) sustains.weaker
              split
              · refine leads_look fun t => ?_
                split
                · exact Leads.bind (sustains.quiet rfl) (fun _ => ih _) sustains.weaker
                · exact sustains.leads (stays_throw _)
              · exact sustains.leads (sustains.quiet rfl)
            · exact sustains.leads (stays_pure _)
          have checkedOk : ∀ u, Leads Action.apply guard fact rest (checked u) := by
            intro u
            unfold checked
            split
            · exact Leads.bind stays_fault taken sustains.weaker
            · exact taken ()
          split
          · split
            · exact Leads.bind (stays_throw _) checkedOk sustains.weaker
            · exact checkedOk ()
          · split
            · exact sustains.begin_leads fun _ => ih _
            · split
              · split
                · exact Leads.bind (sustains.quiet rfl) (fun _ => ih _) sustains.weaker
                · refine Leads.bind (sustains.quiet rfl) (fun _ => ?_) sustains.weaker
                  split
                  · exact Leads.bind (sustains.quiet rfl) (fun _ => ih _) sustains.weaker
                  · exact Leads.bind (stays_throw _) (fun _ => ih _) sustains.weaker
              · exact Leads.bind (sustains.quiet rfl) (fun _ => ih _) sustains.weaker

theorem parse_leads {completed : Routine Unit} (keeps : Keeps guard fact completed) (cursor : Cursor) :
    Leads Action.apply guard fact rest (parse env completed c cursor) := by
  refine leads_look fun s => ?_
  extract_lets http missing count left body
  have read : ∀ u, Leads Action.apply guard fact rest (body u) := by
    intro u
    unfold body
    split
    · exact sustains.leads (sustains.quiet rfl)
    · refine Leads.bind (sustains.quiet rfl) (fun _ => ?_) sustains.weaker
      refine Leads.bind (sustains.answering_keeps keeps) (fun _ => ?_) sustains.weaker
      refine Leads.bind (sustains.quiet rfl) (fun _ => ?_) sustains.weaker
      split
      · exact sustains.readLines_leads keeps _ _
      · exact sustains.leads (stays_pure _)
  split
  · split
    · exact Leads.bind stays_fault read sustains.weaker
    · exact read ()
  · exact sustains.readLines_leads keeps _ _

theorem onRecv_leads (chunk : Bytes) : Leads Action.apply guard fact rest (onRecv env c chunk) := by
  have parsed := fun cursor => sustains.parse_leads sustains.headerCompleted_keeps cursor
  refine leads_look fun s => ?_
  extract_lets ping store
  have stored : ∀ u, Leads Action.apply guard fact rest (store u) := by
    intro u
    refine leads_look fun t => ?_
    extract_lets conn
    split
    · exact sustains.leads (sustains.quiet rfl)
    · split
      · refine Leads.bind (sustains.quiet rfl) (fun _ => leads_look fun u => ?_) sustains.weaker
        exact parsed _
      · exact parsed _
  split
  · exact Leads.bind (sustains.quiet rfl) stored sustains.weaker
  · exact stored ()

theorem guarded_leads {routine : Routine Unit} (leads : Leads Action.apply guard fact rest routine) :
    Leads Action.apply guard fact rest (guarded routine c) := by
  refine Leads.bind (leads.catching fun error => ?_) (fun _ => leads_look fun s => ?_)
    fun _ holds => holds
  · exact (quiet_keeps sustains.calm rfl).bind fun _ => sustains.shut.stays
  · split
    · exact sustains.close
    · exact stays_pure _

theorem recv_leads (loop : Nat) (chunk : Bytes) : Leads Action.apply guard fact rest
    (Input.inLoop loop do
      perform (.receive loop chunk)
      guarded (onRecv env c chunk) c) := by
  refine Tries.catching ?_ fun error => quiet_keeps sustains.calm rfl
  refine Leads.bind (sustains.quiet rfl) (fun _ => ?_) sustains.weaker
  refine Leads.bind (sustains.quiet rfl) (fun _ => ?_) sustains.weaker
  exact sustains.guarded_leads (sustains.onRecv_leads chunk)

theorem send_leads (loop : Nat) {sent : Option Nat}
    (flush : Leads Action.apply guard fact rest (perform (.flush c sent) : Routine Unit)) :
    Leads Action.apply guard fact rest (Input.inLoop loop (guarded (perform (.flush c sent)) c)) := by
  refine Tries.catching ?_ fun error => quiet_keeps sustains.calm rfl
  exact Leads.bind (sustains.quiet rfl) (fun _ => sustains.guarded_leads flush) sustains.weaker

theorem hangup_leads (loop : Nat) :
    Leads Action.apply guard fact rest (Input.inLoop loop (Routine.close c)) := by
  refine Tries.catching ?_ fun error => quiet_keeps sustains.calm rfl
  refine Leads.bind (sustains.quiet rfl) (fun _ => ?_) sustains.weaker
  exact sustains.close.mono sustains.weaker fun _ holds => holds

end SustainsOperation

/-! ### Passes and disconnects -/

namespace Still

open Routine

variable {guard : Action → Traced → Prop} {rest : Traced → Prop} (still : Still guard rest)

include still

theorem checkTimeout_keeps (now : Nat) : Keeps guard rest (checkTimeout now) := by
  refine leads_look fun s => eachDeque_keeps (fun i j queue => ?_) _
  refine (guardLine_keeps i).bind fun _ => ?_
  have expired : ∀ fuel p, Keeps guard rest (expireDeque i j now fuel p) := by
    intro fuel
    induction fuel with
    | zero => exact fun _ => stays_pure _
    | succ fuel ih =>
        intro p
        rw [expireDeque]
        refine leads_look fun t => ?_
        cases t.workerAt i j p with
        | none => exact stays_pure _
        | some w =>
            refine (use_keeps w).bind fun worker => ?_
            split
            · exact (quiet_keeps still rfl).bind fun _ => ih (p + 1)
            · exact ih (p + 1)
  exact expired _ 0

theorem cleanDeadTasks_keeps : Keeps guard rest cleanDeadTasks := by
  have workers : ∀ i j fuel p, Keeps guard rest (cleanWorkers i j fuel p) := by
    intro i j fuel
    induction fuel with
    | zero => exact fun _ => stays_pure _
    | succ fuel ih =>
        intro p
        rw [cleanWorkers]
        refine leads_look fun t => ?_
        cases t.workerAt i j p with
        | none => exact stays_pure _
        | some w =>
            refine (use_keeps w).bind fun worker => ?_
            split
            · exact (quiet_keeps still rfl).bind fun _ => ih p
            · exact ih (p + 1)
  have clients : ∀ i j fuel p, Keeps guard rest (cleanClients i j fuel p) := by
    intro i j fuel
    induction fuel with
    | zero => exact fun _ => stays_pure _
    | succ fuel ih =>
        intro p
        rw [cleanClients]
        refine leads_look fun t => ?_
        cases t.messageAt i j p with
        | none => exact stays_pure _
        | some message =>
            simp only
            cases message.conn with
            | none => exact ih (p + 1)
            | some d =>
                refine (use_keeps d).bind fun client => ?_
                split
                · exact (quiet_keeps still rfl).bind fun _ => ih p
                · exact ih (p + 1)
  refine leads_look fun s => Tries.catching (eachDeque_keeps (fun i j queue => ?_) _)
    fun _ => stays_fault
  refine leads_look fun t => ?_
  cases t.line i with
  | none => exact stays_fault
  | some line =>
      simp only
      split
      · exact stays_pure _
      · exact (workers i j _ 0).bind fun _ => clients i j _ 0

/-- An operation of the server that belongs to no connection. -/
theorem pass_keeps {loop : Nat} {routine : Routine Unit} (keeps : Keeps guard rest routine) :
    Keeps guard rest (Input.inLoop loop routine) :=
  Tries.catching ((quiet_keeps still rfl).bind fun _ => keeps) fun _ => quiet_keeps still rfl

/-- `on_disconnect`: the connection leaves its list, its messages are dropped,
and the rest is quiet. -/
theorem onDisconnect_tries {first middle failed : Traced → Prop} {c : ConnId}
    (leave : ∀ messages, Tries Action.apply guard
      (fun now => first now ∧ (now.1.conns c).directMessage = messages)
      (fun now => middle now ∧ (now.1.conns c).directMessage = messages) failed
      (perform (.leaveList c) : Routine Unit))
    (outside : ∀ now, first now → (now.1.conns c).workerItem = none → middle now)
    (drop : Tries Action.apply guard middle rest failed (perform (.dropDirects c) : Routine Unit))
    (empty : ∀ now, middle now → (now.1.conns c).directMessage = [] → rest now)
    (weaker : ∀ now, rest now → failed now) :
    Tries Action.apply guard first rest failed (onDisconnect c) := by
  refine leads_get fun s => ?_
  extract_lets conn ending erasing dropping
  have ended : ∀ u, Keeps guard rest (ending u) := by
    intro u
    unfold ending
    split
    · exact stays_pure _
    · split
      · split
        · cases conn.client with
          | none => exact quiet_keeps still rfl
          | some d => exact (use_keeps d).bind fun _ => quiet_keeps still rfl
        · split
          · exact stays_throw _
          · exact stays_pure _
      · cases conn.client with
        | none => exact stays_pure _
        | some d =>
            refine (use_keeps d).bind fun client => ?_
            exact (workerResult_keeps still _ none).bind fun _ => quiet_keeps still rfl
  have erased : ∀ u, Keeps guard rest (erasing u) := by
    intro u
    unfold erasing
    split
    · exact (quiet_keeps still rfl).bind ended
    · exact ended ()
  have weakly : ∀ {routine : Routine Unit}, Keeps guard rest routine →
      Tries Action.apply guard rest rest failed routine :=
    fun keeps => Tries.mono keeps (fun _ holds => holds) (fun _ holds => holds) weaker
  have dropped : ∀ u, Tries Action.apply guard
      (fun now => middle now ∧ (now.1.conns c).directMessage = conn.directMessage) rest failed
      (dropping u) := by
    intro u
    unfold dropping
    split
    · exact Tries.bind (drop.mono (fun _ holds => holds.1) (fun _ holds => holds) fun _ holds => holds)
        fun u => weakly (erased u)
    · rename_i nothing
      refine Tries.mono (weakly (erased ())) (fun now holds => ?_) (fun _ holds => holds)
        fun _ holds => holds
      exact empty now holds.1 (by rw [holds.2]; simpa using nothing)
  split
  · refine Tries.bind ((leave conn.directMessage).mono (fun now holds => ?_) (fun _ holds => holds)
      fun _ holds => holds) dropped
    exact ⟨holds.1, by rw [holds.2]⟩
  · rename_i free
    refine (dropped ()).mono (fun now holds => ⟨outside now holds.1 ?_, by rw [holds.2]⟩)
      (fun _ holds => holds) fun _ holds => holds
    rw [holds.2]
    simpa using free

/-- `delete_queue`: `emptying` holds while the removed queue is emptied. -/
theorem deleteQueue_keeps {emptying : Traced → Prop} {key : Bytes}
    (remaining : Still guard emptying) (weaker : ∀ now, emptying now → rest now)
    (unhook : Leads Action.apply guard rest emptying (perform (.unhook key) : Routine Unit))
    (pop : Kept Action.apply guard emptying .popItem)
    (bury : Leads Action.apply guard emptying rest (perform .bury : Routine Unit)) :
    Keeps guard rest (deleteQueue key) := by
  have messages : ∀ j fuel, Keeps guard emptying (closeMessages j fuel) := by
    intro j fuel
    induction fuel with
    | zero => exact stays_pure _
    | succ fuel ih =>
        rw [closeMessages]
        refine leads_look fun s => ?_
        split
        · exact stays_pure _
        · extract_lets next
          have later : ∀ u, Keeps guard emptying (next u) := fun _ =>
            (quiet_keeps remaining rfl).bind fun _ => ih
          split
          · exact later ()
          · rename_i d _
            exact (use_keeps d).bind fun _ => later ()
  have workers : ∀ j fuel, Keeps guard emptying (closeWorkers j fuel) := by
    intro j fuel
    induction fuel with
    | zero => exact stays_pure _
    | succ fuel ih =>
        rw [closeWorkers]
        refine leads_look fun s => ?_
        split
        · exact stays_pure _
        · rename_i w _
          exact (use_keeps w).bind fun _ => (quiet_keeps remaining rfl).bind fun _ => ih
  have loops : ∀ line loops, Keeps guard emptying (closeLoops line loops) := by
    intro line loops
    induction loops with
    | nil => exact stays_pure _
    | cons j loops ih =>
        rw [closeLoops]
        cases line.queue[j]? with
        | none => exact stays_fault
        | some queue =>
            exact (messages j _).bind fun _ => (workers j _).bind fun _ => ih
  have items : ∀ fuel, Keeps guard emptying (popItems fuel) := by
    intro fuel
    induction fuel with
    | zero => exact stays_pure _
    | succ fuel ih => exact pop.stays.bind fun _ => ih
  refine Leads.bind unhook (fun _ => leads_look fun s => ?_) weaker
  cases s.dying with
  | none => exact (stays_pure _).mono weaker fun _ holds => holds
  | some line =>
      refine Leads.bind (Tries.catching (loops line _) fun error => ?_) (fun _ => ?_) weaker
      · exact (release_keeps remaining).bind fun _ => stays_throw error
      · refine Leads.bind (items _) (fun _ => ?_) weaker
        exact Leads.bind bury (fun _ => release_keeps still) fun _ holds => holds

end Still

end Ijson
