/-
Imperative programs as trees of atomic actions on a shared state.

A program looks at the state and performs actions one after another; an action
may throw, and what follows it sees whether it did.  The actions a run performs,
each with the state it meets, are the moments of that run.  The rules below
give the two halves of an invariant proof separately: `wp` collects what the
control flow knows at each action, and `run_invariant` adds what one action
preserves.
-/

import Ijson.Outcome

namespace Ijson

/-- What holds of the state and value of a return, or of the state and error
of a throw.  Nothing is asked of a fault. -/
def Outcome.Ends {σ χ α : Type} (Q : α → σ → Prop) (E : χ → σ → Prop) :
    Outcome σ χ α → Prop
  | .returned state value => Q value state
  | .thrown state error => E error state
  | .fault => True

def Outcome.isReturned {σ χ α : Type} : Outcome σ χ α → Bool
  | .returned _ _ => true
  | _ => false

theorem Outcome.returns_of_isReturned {σ χ : Type} {outcome : Outcome σ χ Unit} (ran : outcome.isReturned = true) :
    ∃ t, outcome = .returned t () := by
  cases outcome with
  | returned t value => exact ⟨t, rfl⟩
  | thrown | fault => cases ran

/-- Go on after a return. -/
def Outcome.bind {σ χ α β : Type} (outcome : Outcome σ χ α) (rest : σ → α → Outcome σ χ β) :
    Outcome σ χ β :=
  match outcome with
  | .returned state value => rest state value
  | .thrown state error => .thrown state error
  | .fault => .fault

/-- Go on after a throw. -/
def Outcome.handle {σ χ α : Type} (outcome : Outcome σ χ α) (handler : σ → χ → Outcome σ χ α) :
    Outcome σ χ α :=
  match outcome with
  | .returned state value => .returned state value
  | .thrown state error => handler state error
  | .fault => .fault

inductive Program (σ ε χ : Type) (α : Type) where
  | done (value : α)
  | throw (error : χ)
  | fault
  | look (next : σ → Program σ ε χ α)
  | act (action : ε) (next : Option χ → Program σ ε χ α)

namespace Program

variable {σ ε χ α β : Type}

def bind : Program σ ε χ α → (α → Program σ ε χ β) → Program σ ε χ β
  | .done value, rest => rest value
  | .throw error, _ => .throw error
  | .fault, _ => .fault
  | .look next, rest => .look fun state => (next state).bind rest
  | .act action next, rest => .act action fun error => (next error).bind rest

instance : Monad (Program σ ε χ) where
  pure := .done
  bind := bind

/-- The state at this point. -/
def get : Program σ ε χ σ := .look .done

/-- Perform an action; its exception is thrown on. -/
def perform (action : ε) : Program σ ε χ Unit :=
  .act action fun error =>
    match error with
    | none => .done ()
    | some error => .throw error

/-- A `catch` of every exception. -/
def catching : Program σ ε χ α → (χ → Program σ ε χ α) → Program σ ε χ α
  | .done value, _ => .done value
  | .throw error, handler => handler error
  | .fault, _ => .fault
  | .look next, handler => .look fun state => (next state).catching handler
  | .act action next, handler => .act action fun error => (next error).catching handler

/-- The run from a state: its moments and its outcome. -/
def run (apply : ε → σ → Outcome σ χ Unit) :
    Program σ ε χ α → σ → List (ε × σ) × Outcome σ χ α
  | .done value, state => ([], .returned state value)
  | .throw error, state => ([], .thrown state error)
  | .fault, _ => ([], .fault)
  | .look next, state => (next state).run apply state
  | .act action next, state =>
      let later :=
        match apply action state with
        | .returned after _ => (next none).run apply after
        | .thrown after error => (next (some error)).run apply after
        | .fault => ([], .fault)
      ((action, state) :: later.1, later.2)

/-- How the run from a state ends. -/
def outcome (apply : ε → σ → Outcome σ χ Unit) (program : Program σ ε χ α) (state : σ) :
    Outcome σ χ α := (program.run apply state).2

/-- Every action meets `guard`, a return ends in `Q` and a throw in `E`. -/
def wp (apply : ε → σ → Outcome σ χ Unit) (guard : ε → σ → Prop) :
    Program σ ε χ α → (α → σ → Prop) → (χ → σ → Prop) → σ → Prop
  | .done value, Q, _, state => Q value state
  | .throw error, _, E, state => E error state
  | .fault, _, _, _ => True
  | .look next, Q, E, state => (next state).wp apply guard Q E state
  | .act action next, Q, E, state =>
      guard action state ∧
        (apply action state).Ends (fun _ after => (next none).wp apply guard Q E after)
          fun error after => (next (some error)).wp apply guard Q E after

section Rules

variable {apply : ε → σ → Outcome σ χ Unit} {guard : ε → σ → Prop}
  {Q : α → σ → Prop} {E : χ → σ → Prop} {state : σ}

@[simp] theorem pure_bind_eq (value : α) (rest : α → Program σ ε χ β) :
    (pure value >>= rest) = rest value := rfl

@[simp] theorem wp_pure (value : α) :
    (pure value : Program σ ε χ α).wp apply guard Q E state ↔ Q value state := Iff.rfl

@[simp] theorem wp_throw (error : χ) :
    (throw error : Program σ ε χ α).wp apply guard Q E state ↔ E error state := Iff.rfl

@[simp] theorem wp_fault :
    (fault : Program σ ε χ α).wp apply guard Q E state := trivial

@[simp] theorem wp_get {Q : σ → σ → Prop} :
    (get : Program σ ε χ σ).wp apply guard Q E state ↔ Q state state := Iff.rfl

theorem wp_perform {Q : Unit → σ → Prop} (action : ε) :
    (perform action).wp apply guard Q E state ↔
      guard action state ∧ (apply action state).Ends (fun _ after => Q () after) E := Iff.rfl

theorem outcome_pure (value : α) :
    (pure value : Program σ ε χ α).outcome apply state = .returned state value := rfl

theorem outcome_fault : (fault : Program σ ε χ α).outcome apply state = .fault := rfl

theorem outcome_get : (get : Program σ ε χ σ).outcome apply state = .returned state state := rfl

theorem outcome_act (action : ε) (next : Option χ → Program σ ε χ α) :
    (act action next).outcome apply state =
      match apply action state with
      | .returned after _ => (next none).outcome apply after
      | .thrown after error => (next (some error)).outcome apply after
      | .fault => .fault := by
  unfold outcome
  rw [run]
  cases apply action state <;> rfl

theorem outcome_perform (action : ε) :
    (perform action).outcome apply state = apply action state := by
  rw [perform, outcome_act]
  cases apply action state <;> rfl

theorem outcome_bind (program : Program σ ε χ α) (rest : α → Program σ ε χ β) :
    (program >>= rest).outcome apply state =
      (program.outcome apply state).bind fun after value => (rest value).outcome apply after := by
  induction program generalizing state with
  | done result => rfl
  | throw raised => rfl
  | fault => rfl
  | look next ih => exact ih state
  | act action next ih =>
      change (act action fun error => (next error).bind rest).outcome apply state = _
      rw [outcome_act, outcome_act]
      cases apply action state with
      | returned after result => exact ih none
      | thrown after raised => exact ih (some raised)
      | fault => rfl

theorem outcome_catching (program : Program σ ε χ α) (handler : χ → Program σ ε χ α) :
    (program.catching handler).outcome apply state =
      (program.outcome apply state).handle fun after error =>
        (handler error).outcome apply after := by
  induction program generalizing state with
  | done result => rfl
  | throw raised => rfl
  | fault => rfl
  | look next ih => exact ih state
  | act action next ih =>
      rw [catching, outcome_act, outcome_act]
      cases apply action state with
      | returned after result => exact ih none
      | thrown after raised => exact ih (some raised)
      | fault => rfl

/-- Two programs one after the other return when both do. -/
theorem bind_returned {program : Program σ ε χ α} {rest : α → Program σ ε χ β} {after : σ} {value : β} :
    (program >>= rest).outcome apply state = .returned after value ↔
      ∃ middle first, program.outcome apply state = .returned middle first ∧
        (rest first).outcome apply middle = .returned after value := by
  rw [outcome_bind]
  cases program.outcome apply state with
  | returned middle first =>
      constructor
      · exact fun ends => ⟨middle, first, rfl, ends⟩
      · rintro ⟨_, _, same, ends⟩
        cases same
        exact ends
  | thrown middle error => simp [Outcome.bind]
  | fault => simp [Outcome.bind]

theorem look_returned {rest : σ → Program σ ε χ α} {after : σ} {value : α} :
    (get >>= rest).outcome apply state = .returned after value ↔
      (rest state).outcome apply state = .returned after value := Iff.rfl

theorem act_returned {action : ε} {rest : Unit → Program σ ε χ α} {after : σ} {value : α} :
    (perform action >>= rest).outcome apply state = .returned after value ↔
      ∃ middle, apply action state = .returned middle () ∧
        (rest ()).outcome apply middle = .returned after value := by
  rw [bind_returned]
  simp only [outcome_perform]
  constructor
  · rintro ⟨middle, ⟨⟩, applied, later⟩
    exact ⟨middle, applied, later⟩
  · rintro ⟨middle, applied, later⟩
    exact ⟨middle, (), applied, later⟩

theorem pure_returned {value result : α} {after : σ} :
    (pure value : Program σ ε χ α).outcome apply state = .returned after result ↔
      after = state ∧ result = value := by
  rw [outcome_pure, Outcome.returned.injEq, eq_comm, eq_comm (a := value)]

theorem catching_fault_returned {program : Program σ ε χ α} {after : σ} {value : α} :
    (program.catching fun _ => .fault).outcome apply state = .returned after value ↔
      program.outcome apply state = .returned after value := by
  rw [outcome_catching]
  cases program.outcome apply state <;> simp [Outcome.handle, outcome_fault]

/-- The moments of two programs one after the other. -/
theorem moments_bind (program : Program σ ε χ α) (rest : α → Program σ ε χ β) :
    ((program >>= rest).run apply state).1 = (program.run apply state).1 ++
      match program.outcome apply state with
      | .returned after value => ((rest value).run apply after).1
      | _ => [] := by
  induction program generalizing state with
  | done result => rfl
  | throw raised => rfl
  | fault => rfl
  | look next ih => exact ih state
  | act action next ih =>
      change ((act action fun error => (next error).bind rest).run apply state).1 = _
      rw [outcome_act]
      simp only [run, List.cons_append]
      cases apply action state with
      | returned after result => exact congrArg _ (ih none)
      | thrown after raised => exact congrArg _ (ih (some raised))
      | fault => rfl

theorem moments_catching (program : Program σ ε χ α) (handler : χ → Program σ ε χ α) :
    ((program.catching handler).run apply state).1 = (program.run apply state).1 ++
      match program.outcome apply state with
      | .thrown after error => ((handler error).run apply after).1
      | _ => [] := by
  induction program generalizing state with
  | done result => rfl
  | throw raised => rfl
  | fault => rfl
  | look next ih => exact ih state
  | act action next ih =>
      rw [catching, outcome_act]
      simp only [run, List.cons_append]
      cases apply action state with
      | returned after result => exact congrArg _ (ih none)
      | thrown after raised => exact congrArg _ (ih (some raised))
      | fault => rfl

theorem run_get_bind (rest : σ → Program σ ε χ α) :
    (get >>= rest).run apply state = (rest state).run apply state := rfl

theorem moments_get : ((get : Program σ ε χ σ).run apply state).1 = [] := rfl

theorem moments_perform (action : ε) :
    ((perform action : Program σ ε χ Unit).run apply state).1 = [(action, state)] := by
  simp only [perform, run]
  cases apply action state <;> rfl

/-- The run has the moments `front` first and goes on as `later` does from `middle`. -/
def Comes (apply : ε → σ → Outcome σ χ Unit) (program : Program σ ε χ α) (state : σ) (front : List (ε × σ))
    (later : Program σ ε χ α) (middle : σ) : Prop :=
  program.run apply state = (front ++ (later.run apply middle).1, (later.run apply middle).2)

theorem comes_here (program : Program σ ε χ α) (state : σ) : Comes apply program state [] program state := rfl

theorem Comes.trans {first second third : Program σ ε χ α} {middle last : σ} {front back : List (ε × σ)}
    (one : Comes apply first state front second middle) (two : Comes apply second middle back third last) :
    Comes apply first state (front ++ back) third last := by
  unfold Comes at *
  rw [one, two, List.append_assoc]

theorem Comes.look {rest : σ → Program σ ε χ α} {later : Program σ ε χ α} {middle : σ} {front : List (ε × σ)}
    (comes : Comes apply (rest state) state front later middle) :
    Comes apply (get >>= rest) state front later middle := comes

theorem Comes.perform {action : ε} {rest : Unit → Program σ ε χ α} {later : Program σ ε χ α} {after middle : σ}
    {front : List (ε × σ)} (applied : apply action state = .returned after ())
    (comes : Comes apply (rest ()) after front later middle) :
    Comes apply (Program.perform action >>= rest) state ((action, state) :: front) later middle := by
  change Comes apply (.act action _) state _ later middle
  unfold Comes at *
  simp only [run, applied]
  exact congrArg (fun ran => ((action, state) :: ran.1, ran.2)) comes

theorem Comes.outcome_eq {program later : Program σ ε χ α} {middle : σ} {front : List (ε × σ)}
    (comes : Comes apply program state front later middle) :
    program.outcome apply state = later.outcome apply middle := by
  rw [outcome, comes]
  rfl

theorem Comes.moments_eq {program later : Program σ ε χ α} {middle : σ} {front : List (ε × σ)}
    (comes : Comes apply program state front later middle) :
    (program.run apply state).1 = front ++ (later.run apply middle).1 := by
  rw [comes]

theorem Comes.bind {program later : Program σ ε χ α} {middle : σ} {front : List (ε × σ)}
    (comes : Comes apply program state front later middle) (rest : α → Program σ ε χ β) :
    Comes apply (program >>= rest) state front (later >>= rest) middle := by
  have whole : (program >>= rest).outcome apply state = _ := outcome_bind program rest
  rw [comes.outcome_eq, ← outcome_bind later rest] at whole
  apply Prod.ext
  · rw [moments_bind, moments_bind, comes.outcome_eq, comes.moments_eq, List.append_assoc]
  · exact whole

/-- The run comes, over some moments, to where `later` goes on from `middle`. -/
def Reaches (apply : ε → σ → Outcome σ χ Unit) (program : Program σ ε χ α) (state : σ) (later : Program σ ε χ α)
    (middle : σ) : Prop :=
  ∃ front, Comes apply program state front later middle

theorem reaches_here (program : Program σ ε χ α) (state : σ) : Reaches apply program state program state :=
  ⟨[], comes_here program state⟩

theorem reaches_returned {program : Program σ ε χ α} {state after : σ} {value : α}
    (returned : program.outcome apply state = .returned after value) :
    Reaches apply program state (return value) after :=
  ⟨(program.run apply state).1, Prod.ext (List.append_nil _).symm returned⟩

theorem Reaches.trans {first second third : Program σ ε χ α} {middle last : σ}
    (one : Reaches apply first state second middle) (two : Reaches apply second middle third last) :
    Reaches apply first state third last := by
  obtain ⟨front, before⟩ := one
  obtain ⟨back, behind⟩ := two
  exact ⟨front ++ back, before.trans behind⟩

theorem Reaches.look {rest : σ → Program σ ε χ α} {later : Program σ ε χ α} {middle : σ}
    (reaches : Reaches apply (rest state) state later middle) :
    Reaches apply (get >>= rest) state later middle := reaches

theorem Reaches.perform {action : ε} {rest : Unit → Program σ ε χ α} {later : Program σ ε χ α} {after middle : σ}
    (applied : apply action state = .returned after ()) (reaches : Reaches apply (rest ()) after later middle) :
    Reaches apply (Program.perform action >>= rest) state later middle := by
  obtain ⟨front, comes⟩ := reaches
  exact ⟨(action, state) :: front, comes.perform applied⟩

theorem Reaches.bind {program later : Program σ ε χ α} {middle : σ}
    (reaches : Reaches apply program state later middle) (rest : α → Program σ ε χ β) :
    Reaches apply (program >>= rest) state (later >>= rest) middle := by
  obtain ⟨front, comes⟩ := reaches
  exact ⟨front, comes.bind rest⟩

theorem Reaches.outcome_eq {program later : Program σ ε χ α} {middle : σ}
    (reaches : Reaches apply program state later middle) :
    program.outcome apply state = later.outcome apply middle := by
  obtain ⟨front, comes⟩ := reaches
  exact comes.outcome_eq

theorem Ends.mono {outcome : Outcome σ χ α} {Q' : α → σ → Prop} {E' : χ → σ → Prop}
    (ends : outcome.Ends Q E) (value : ∀ a s, Q a s → Q' a s) (error : ∀ x s, E x s → E' x s) :
    outcome.Ends Q' E' := by
  cases outcome with
  | returned after result => exact value _ _ ends
  | thrown after raised => exact error _ _ ends
  | fault => trivial

theorem Ends.both {outcome : Outcome σ χ α} {Q' : α → σ → Prop} {E' : χ → σ → Prop}
    (left : outcome.Ends Q E) (right : outcome.Ends Q' E') :
    outcome.Ends (fun a s => Q a s ∧ Q' a s) fun x s => E x s ∧ E' x s := by
  cases outcome with
  | returned after result => exact ⟨left, right⟩
  | thrown after raised => exact ⟨left, right⟩
  | fault => trivial

theorem wp_mono {program : Program σ ε χ α} {Q' : α → σ → Prop} {E' : χ → σ → Prop}
    (holds : program.wp apply guard Q E state) (value : ∀ a s, Q a s → Q' a s)
    (error : ∀ x s, E x s → E' x s) : program.wp apply guard Q' E' state := by
  induction program generalizing state with
  | done result => exact value _ _ holds
  | throw raised => exact error _ _ holds
  | fault => trivial
  | look next ih => exact ih state holds
  | act action next ih =>
      exact ⟨holds.1, Ends.mono holds.2 (fun _ after => ih none) fun raised after => ih (some raised)⟩

theorem wp_bind (program : Program σ ε χ α) (rest : α → Program σ ε χ β) {Q : β → σ → Prop} :
    (program >>= rest).wp apply guard Q E state ↔
      program.wp apply guard (fun value after => (rest value).wp apply guard Q E after) E state := by
  induction program generalizing state with
  | done result => exact Iff.rfl
  | throw raised => exact Iff.rfl
  | fault => exact Iff.rfl
  | look next ih => exact ih state
  | act action next ih =>
      apply and_congr Iff.rfl
      cases apply action state with
      | returned after result => exact ih none
      | thrown after raised => exact ih (some raised)
      | fault => exact Iff.rfl

theorem wp_perform_bind {action : ε} {rest : Unit → Program σ ε χ β} {Q : β → σ → Prop}
    (met : guard action state)
    (later : (apply action state).Ends (fun _ after => (rest ()).wp apply guard Q E after) E) :
    (perform action >>= rest).wp apply guard Q E state :=
  (wp_bind _ _).mpr ⟨met, later⟩

theorem wp_catching (program : Program σ ε χ α) (handler : χ → Program σ ε χ α) :
    (program.catching handler).wp apply guard Q E state ↔
      program.wp apply guard Q (fun error after => (handler error).wp apply guard Q E after)
        state := by
  induction program generalizing state with
  | done result => exact Iff.rfl
  | throw raised => exact Iff.rfl
  | fault => exact Iff.rfl
  | look next ih => exact ih state
  | act action next ih =>
      apply and_congr Iff.rfl
      cases apply action state with
      | returned after result => exact ih none
      | thrown after raised => exact ih (some raised)
      | fault => exact Iff.rfl

theorem outcome_ends {program : Program σ ε χ α} (holds : program.wp apply guard Q E state) :
    (program.outcome apply state).Ends Q E := by
  induction program generalizing state with
  | done result => exact holds
  | throw raised => exact holds
  | fault => trivial
  | look next ih => exact ih state holds
  | act action next ih =>
      have later := holds.2
      rw [outcome_act]
      cases applied : apply action state with
      | returned after result =>
          rw [applied] at later
          exact ih none later
      | thrown after raised =>
          rw [applied] at later
          exact ih (some raised) later
      | fault => trivial

/-- A fact that the guarded actions preserve can be used at each of them. -/
theorem wp_keeping {fact : σ → Prop}
    (preserved : ∀ action state, guard action state → fact state →
      (apply action state).Ends (fun _ after => fact after) fun _ after => fact after)
    {program : Program σ ε χ α} (holds : program.wp apply guard Q E state) (start : fact state) :
    program.wp apply (fun action state => guard action state ∧ fact state)
      (fun value after => Q value after ∧ fact after) (fun error after => E error after ∧ fact after)
      state := by
  induction program generalizing state with
  | done result => exact ⟨holds, start⟩
  | throw raised => exact ⟨holds, start⟩
  | fault => trivial
  | look next ih => exact ih state holds start
  | act action next ih =>
      refine ⟨⟨holds.1, start⟩, ?_⟩
      have now := preserved action state holds.1 start
      have later := holds.2
      cases applied : apply action state with
      | returned after result =>
          rw [applied] at now later
          exact ih none later now
      | thrown after raised =>
          rw [applied] at now later
          exact ih (some raised) later now
      | fault => trivial

theorem wp_weaken {weaker : ε → σ → Prop} {program : Program σ ε χ α}
    (holds : program.wp apply guard Q E state)
    (weaken : ∀ action state, guard action state → weaker action state) :
    program.wp apply weaker Q E state := by
  induction program generalizing state with
  | done result => exact holds
  | throw raised => exact holds
  | fault => trivial
  | look next ih => exact ih state holds
  | act action next ih =>
      exact ⟨weaken _ _ holds.1, Ends.mono holds.2 (fun _ _ => ih none) fun raised _ => ih (some raised)⟩

/-- The rule of invariants: when each action preserves `invariant` under what
the control flow knows (`guard`) and what is assumed of the run (`assumed`),
then it holds at every moment whose earlier moments meet the assumption. -/
theorem moment_invariant {invariant : σ → Prop} {assumed : ε → σ → Prop}
    (preserved : ∀ action state, guard action state → assumed action state → invariant state →
      (apply action state).Ends (fun _ after => invariant after) fun _ after => invariant after)
    {program : Program σ ε χ α} (holds : program.wp apply guard Q E state)
    (start : invariant state) {before after : List (ε × σ)} {moment : ε × σ}
    (split : (program.run apply state).1 = before ++ moment :: after)
    (assumptions : ∀ earlier ∈ before, assumed earlier.1 earlier.2) :
    invariant moment.2 ∧ guard moment.1 moment.2 := by
  induction program generalizing state before with
  | done result => exact absurd split (by simp [run])
  | throw raised => exact absurd split (by simp [run])
  | fault => exact absurd split (by simp [run])
  | look next ih => exact ih state holds start split assumptions
  | act action next ih =>
      simp only [run] at split
      cases before with
      | nil =>
          rw [List.nil_append, List.cons.injEq] at split
          rw [← split.1]
          exact ⟨start, holds.1⟩
      | cons first before =>
          rw [List.cons_append, List.cons.injEq] at split
          obtain ⟨rfl, split⟩ := split
          have now := preserved action state holds.1 (assumptions _ List.mem_cons_self) start
          have later := holds.2
          have others := fun earlier member =>
            assumptions earlier (List.mem_cons_of_mem (action, state) member)
          cases applied : apply action state with
          | returned after result =>
              rw [applied] at now later
              simp only [applied] at split
              exact ih none later now split others
          | thrown after raised =>
              rw [applied] at now later
              simp only [applied] at split
              exact ih (some raised) later now split others
          | fault =>
              simp only [applied] at split
              exact absurd split (by simp)

/-- The invariant holds at the end, along with the postcondition. -/
theorem run_invariant {invariant : σ → Prop} {assumed : ε → σ → Prop}
    (preserved : ∀ action state, guard action state → assumed action state → invariant state →
      (apply action state).Ends (fun _ after => invariant after) fun _ after => invariant after)
    {program : Program σ ε χ α} (holds : program.wp apply guard Q E state)
    (start : invariant state)
    (assumptions : ∀ moment ∈ (program.run apply state).1, assumed moment.1 moment.2) :
    (program.run apply state).2.Ends (fun value after => Q value after ∧ invariant after)
      fun error after => E error after ∧ invariant after := by
  induction program generalizing state with
  | done result => exact ⟨holds, start⟩
  | throw raised => exact ⟨holds, start⟩
  | fault => trivial
  | look next ih => exact ih state holds start assumptions
  | act action next ih =>
      have later := holds.2
      simp only [run] at assumptions ⊢
      have now := preserved action state holds.1
        (assumptions (action, state) List.mem_cons_self) start
      have others := fun moment member =>
        assumptions moment (List.mem_cons_of_mem (action, state) member)
      cases applied : apply action state with
      | returned after result =>
          rw [applied] at now later
          simp only [applied] at others ⊢
          exact ih none later now others
      | thrown after raised =>
          rw [applied] at now later
          simp only [applied] at others ⊢
          exact ih (some raised) later now others
      | fault => trivial

/-- A count that each action of a kind raises by one, at every moment. -/
theorem moment_counts {count : σ → Nat} {adds : ε × σ → Bool}
    (counts : ∀ action state, (apply action state).Ends
      (fun _ after => count after = count state + if adds (action, state) then 1 else 0)
      fun _ after => count after = count state + if adds (action, state) then 1 else 0)
    {program : Program σ ε χ α} {before after : List (ε × σ)} {moment : ε × σ}
    (split : (program.run apply state).1 = before ++ moment :: after) :
    count moment.2 = count state + before.countP adds := by
  induction program generalizing state before with
  | done result => exact absurd split (by simp [run])
  | throw raised => exact absurd split (by simp [run])
  | fault => exact absurd split (by simp [run])
  | look next ih => exact ih state split
  | act action next ih =>
      simp only [run] at split
      cases before with
      | nil =>
          rw [List.nil_append, List.cons.injEq] at split
          rw [← split.1]
          simp
      | cons first before =>
          rw [List.cons_append, List.cons.injEq] at split
          obtain ⟨rfl, split⟩ := split
          have now := counts action state
          rw [List.countP_cons, Nat.add_comm (before.countP adds), ← Nat.add_assoc]
          cases applied : apply action state with
          | returned after result =>
              rw [applied] at now
              simp only [applied] at split
              rw [ih none split, now]
          | thrown after raised =>
              rw [applied] at now
              simp only [applied] at split
              rw [ih (some raised) split, now]
          | fault =>
              simp only [applied] at split
              exact absurd split (by simp)

theorem run_counts {count : σ → Nat} {adds : ε × σ → Bool}
    (counts : ∀ action state, (apply action state).Ends
      (fun _ after => count after = count state + if adds (action, state) then 1 else 0)
      fun _ after => count after = count state + if adds (action, state) then 1 else 0)
    (program : Program σ ε χ α) :
    (program.run apply state).2.Ends
      (fun _ after => count after = count state + (program.run apply state).1.countP adds)
      fun _ after => count after = count state + (program.run apply state).1.countP adds := by
  induction program generalizing state with
  | done result => simp [run, Outcome.Ends]
  | throw raised => simp [run, Outcome.Ends]
  | fault => trivial
  | look next ih => exact ih state
  | act action next ih =>
      simp only [run, List.countP_cons]
      rw [Nat.add_comm (List.countP adds _), ← Nat.add_assoc]
      have now := counts action state
      cases applied : apply action state with
      | returned after result =>
          rw [applied] at now
          rw [← show count after = _ from now]
          exact ih none
      | thrown after raised =>
          rw [applied] at now
          rw [← show count after = _ from now]
          exact ih (some raised)
      | fault => trivial

/-! ### Guards that hold wherever a program starts -/

/-- Every action meets `guard`, whatever state the program starts in. -/
def Heeds (apply : ε → σ → Outcome σ χ Unit) (guard : ε → σ → Prop) (program : Program σ ε χ α) : Prop :=
  ∀ state, program.wp apply guard (fun _ _ => True) (fun _ _ => True) state

theorem heeds_pure (value : α) : Heeds apply guard (pure value : Program σ ε χ α) :=
  fun _ => trivial

theorem heeds_throw (error : χ) : Heeds apply guard (throw error : Program σ ε χ α) :=
  fun _ => trivial

theorem heeds_fault : Heeds apply guard (fault : Program σ ε χ α) :=
  fun _ => trivial

theorem heeds_perform {action : ε} (met : ∀ state, guard action state) :
    Heeds apply guard (perform action) := by
  intro state
  refine ⟨met state, ?_⟩
  cases apply action state <;> trivial

theorem heeds_look {rest : σ → Program σ ε χ α} (later : ∀ state, Heeds apply guard (rest state)) :
    Heeds apply guard (get >>= rest) :=
  fun state => later state state

theorem Heeds.bind {program : Program σ ε χ α} {rest : α → Program σ ε χ β}
    (first : Heeds apply guard program) (later : ∀ value, Heeds apply guard (rest value)) :
    Heeds apply guard (program >>= rest) := by
  intro state
  rw [wp_bind]
  exact wp_mono (first state) (fun value after _ => later value after) fun _ _ _ => trivial

/-- The first action is performed in a known state. -/
theorem wp_perform_heeds {action : ε} {rest : Unit → Program σ ε χ α} {state : σ} (met : guard action state)
    (later : ∀ value, Heeds apply guard (rest value)) :
    (perform action >>= rest).wp apply guard (fun _ _ => True) (fun _ _ => True) state := by
  refine wp_perform_bind met ?_
  cases apply action state with
  | returned after value => exact later () after
  | thrown after error => trivial
  | fault => trivial

/-- What each action relates to its own state the whole program does. -/
theorem Heeds.relates {relation : σ → σ → Prop} (same : ∀ state, relation state state)
    (trans : ∀ {first second third}, relation first second → relation second third → relation first third)
    {program : Program σ ε χ α} (heeds : Heeds apply (fun action state =>
      (apply action state).Ends (fun _ after => relation state after) fun _ after => relation state after) program)
    (state : σ) :
    program.wp apply (fun _ before => relation state before) (fun _ after => relation state after)
      (fun _ after => relation state after) state := by
  have kept := wp_keeping (fun action before (each : (apply action before).Ends _ _)
    (first : relation state before) => Ends.mono each (fun _ _ second => trans first second)
      fun _ _ second => trans first second) (heeds state) (same state)
  exact wp_weaken (wp_mono kept (fun _ _ both => both.2) fun _ _ both => both.2) fun _ _ both => both.2

theorem Heeds.catching {program : Program σ ε χ α} {handler : χ → Program σ ε χ α}
    (first : Heeds apply guard program) (later : ∀ error, Heeds apply guard (handler error)) :
    Heeds apply guard (program.catching handler) := by
  intro state
  rw [wp_catching]
  exact wp_mono (first state) (fun _ _ _ => trivial) fun error after _ => later error after

/-! ### Actions without which nothing returns -/

/-- No run returns without a moment that meets `met`. -/
def Performs (apply : ε → σ → Outcome σ χ Unit) (met : ε × σ → Prop) (program : Program σ ε χ α) : Prop :=
  ∀ state after value, program.outcome apply state = .returned after value →
    ∃ moment ∈ (program.run apply state).1, met moment

section Performing

variable {met : ε × σ → Prop}

theorem performs_fault : Performs apply met (fault : Program σ ε χ α) := nofun

theorem performs_perform {action : ε} (meets : ∀ state, met (action, state)) :
    Performs apply met (perform action) := by
  intro state after value _
  refine ⟨(action, state), ?_, meets state⟩
  rw [moments_perform]
  exact List.mem_singleton_self _

theorem performs_look {rest : σ → Program σ ε χ α} (later : ∀ state, Performs apply met (rest state)) :
    Performs apply met (get >>= rest) :=
  fun state after value returned => later state state after value returned

theorem Performs.bind {program : Program σ ε χ α} (first : Performs apply met program)
    (rest : α → Program σ ε χ β) : Performs apply met (program >>= rest) := by
  intro state after value returned
  obtain ⟨middle, result, ran, -⟩ := bind_returned.mp returned
  obtain ⟨moment, member, meets⟩ := first state middle result ran
  refine ⟨moment, ?_, meets⟩
  rw [moments_bind]
  exact List.mem_append_left _ member

/-- The second of two programs does it, whatever the first has returned. -/
theorem performs_behind (program : Program σ ε χ α) {rest : α → Program σ ε χ β}
    (later : ∀ value, Performs apply met (rest value)) : Performs apply met (program >>= rest) := by
  intro state after value returned
  obtain ⟨middle, result, ran, ends⟩ := bind_returned.mp returned
  obtain ⟨moment, member, meets⟩ := later result middle after value ends
  refine ⟨moment, ?_, meets⟩
  rw [moments_bind, ran]
  exact List.mem_append_right _ member

theorem Performs.catching {program : Program σ ε χ α} {handler : χ → Program σ ε χ α}
    (first : Performs apply met program) (later : ∀ error, Performs apply met (handler error)) :
    Performs apply met (program.catching handler) := by
  intro state after value returned
  rw [outcome_catching] at returned
  rw [moments_catching]
  cases ran : program.outcome apply state with
  | returned middle result =>
      obtain ⟨moment, member, meets⟩ := first state middle result ran
      exact ⟨moment, List.mem_append_left _ member, meets⟩
  | thrown middle error =>
      rw [ran] at returned
      obtain ⟨moment, member, meets⟩ := later error middle after value returned
      exact ⟨moment, List.mem_append_right _ member, meets⟩
  | fault =>
      rw [ran] at returned
      cases returned

/-- No run that has done `first` returns without a moment that meets `met`. -/
def Follows (apply : ε → σ → Outcome σ χ Unit) (first met : ε × σ → Prop) (program : Program σ ε χ α) : Prop :=
  ∀ state after value, program.outcome apply state = .returned after value →
    (∃ moment ∈ (program.run apply state).1, first moment) → ∃ moment ∈ (program.run apply state).1, met moment

variable {first : ε × σ → Prop}

theorem Performs.follows {program : Program σ ε χ α} (performs : Performs apply met program) :
    Follows apply first met program :=
  fun state after value returned _ => performs state after value returned

theorem Follows.bind {program : Program σ ε χ α} {rest : α → Program σ ε χ β} (one : Follows apply first met program)
    (two : ∀ value, Follows apply first met (rest value)) : Follows apply first met (program >>= rest) := by
  rintro state after value returned ⟨moment, member, here⟩
  obtain ⟨middle, result, ran, ends⟩ := bind_returned.mp returned
  rw [moments_bind, ran] at member ⊢
  rcases List.mem_append.mp member with early | late
  · obtain ⟨found, isFound, meets⟩ := one state middle result ran ⟨moment, early, here⟩
    exact ⟨found, List.mem_append_left _ isFound, meets⟩
  · obtain ⟨found, isFound, meets⟩ := two result middle after value ends ⟨moment, late, here⟩
    exact ⟨found, List.mem_append_right _ isFound, meets⟩

end Performing

/-! ### Programs that return unless they perform an action -/

section Landing

variable {met : ε × σ → Prop} {state : σ}

/-- The program performs such an action, or returns so. -/
def Lands (apply : ε → σ → Outcome σ χ Unit) (met : ε × σ → Prop) (program : Program σ ε χ α) (state : σ)
    (last : α → σ → Prop) : Prop :=
  (∃ moment ∈ (program.run apply state).1, met moment) ∨
    ∃ after value, program.outcome apply state = .returned after value ∧ last value after

theorem lands_returned {program : Program σ ε χ α} {last : α → σ → Prop} {after : σ} {value : α}
    (returned : program.outcome apply state = .returned after value) (holds : last value after) :
    Lands apply met program state last :=
  .inr ⟨after, value, returned, holds⟩

theorem Lands.bind {program : Program σ ε χ α} {rest : α → Program σ ε χ β} {middle : α → σ → Prop}
    {last : β → σ → Prop} (lands : Lands apply met program state middle)
    (later : ∀ value after, middle value after → Lands apply met (rest value) after last) :
    Lands apply met (program >>= rest) state last := by
  rcases lands with ⟨moment, member, meets⟩ | ⟨after, value, returned, holds⟩
  · refine .inl ⟨moment, ?_, meets⟩
    rw [moments_bind]
    exact List.mem_append_left _ member
  · rcases later value after holds with ⟨moment, member, meets⟩ | ⟨final, result, ended, good⟩
    · refine .inl ⟨moment, ?_, meets⟩
      rw [moments_bind, returned]
      exact List.mem_append_right _ member
    · refine .inr ⟨final, result, ?_, good⟩
      have whole : (program >>= rest).outcome apply state = _ := outcome_bind program rest
      rw [whole, returned]
      exact ended

theorem Lands.look {rest : σ → Program σ ε χ α} {last : α → σ → Prop}
    (lands : Lands apply met (rest state) state last) : Lands apply met (get >>= rest) state last := lands

theorem Lands.perform {action : ε} {rest : Unit → Program σ ε χ α} {last : α → σ → Prop} {after : σ}
    (applied : apply action state = .returned after ()) (lands : Lands apply met (rest ()) after last) :
    Lands apply met (Program.perform action >>= rest) state last := by
  have one : Lands apply met (Program.perform action) state fun _ now => now = after :=
    lands_returned (by rw [outcome_perform, applied]) rfl
  exact one.bind fun _ now same => same ▸ lands

theorem Lands.catching {program : Program σ ε χ α} {last : α → σ → Prop}
    (lands : Lands apply met program state last) (handler : χ → Program σ ε χ α) :
    Lands apply met (program.catching handler) state last := by
  rcases lands with ⟨moment, member, meets⟩ | ⟨after, value, returned, holds⟩
  · refine .inl ⟨moment, ?_, meets⟩
    rw [moments_catching]
    exact List.mem_append_left _ member
  · refine .inr ⟨after, value, ?_, holds⟩
    rw [outcome_catching, returned]
    rfl

end Landing

end Rules

end Program

end Ijson
