/-
Runs that carry what happened before.

A recorded run has the moments so far beside its state, so that an invariant
can speak of the past.  `Stays` is the form in which routines are taken
together: a fact that each action keeps is kept by the whole.
-/

import Ijson.Program

namespace Ijson

namespace Program

variable {σ ε χ α β : Type}

/-- A state with the moments before it. -/
abbrev Recorded (σ ε : Type) : Type := σ × List (ε × σ)

/-- The program on recorded states; it looks at the state only. -/
def recorded : Program σ ε χ α → Program (Recorded σ ε) ε χ α
  | .done value => .done value
  | .throw error => .throw error
  | .fault => .fault
  | .look next => .look fun state => (next state.1).recorded
  | .act action next => .act action fun error => (next error).recorded

/-- An action appends its moment. -/
def recording (apply : ε → σ → Outcome σ χ Unit) (action : ε) (state : Recorded σ ε) :
    Outcome (Recorded σ ε) χ Unit :=
  match apply action state.1 with
  | .returned after value => .returned (after, state.2 ++ [(action, state.1)]) value
  | .thrown after error => .thrown (after, state.2 ++ [(action, state.1)]) error
  | .fault => .fault

/-- From `first` on, each action meets `guard`; `last` holds after a return and
`failed` after a throw. -/
def Tries (apply : ε → σ → Outcome σ χ Unit) (guard : ε → Recorded σ ε → Prop)
    (first last failed : Recorded σ ε → Prop) (program : Program σ ε χ α) : Prop :=
  ∀ state, first state → program.recorded.wp (recording apply) guard
    (fun _ => last) (fun _ => failed) state

/-- The same fact holds at the end either way. -/
abbrev Leads (apply : ε → σ → Outcome σ χ Unit) (guard : ε → Recorded σ ε → Prop)
    (first last : Recorded σ ε → Prop) (program : Program σ ε χ α) : Prop :=
  Tries apply guard first last last program

/-- A fact that holds again at the end. -/
abbrev Stays (apply : ε → σ → Outcome σ χ Unit) (guard : ε → Recorded σ ε → Prop)
    (fact : Recorded σ ε → Prop) (program : Program σ ε χ α) : Prop :=
  Leads apply guard fact fact program

/-- An action that may come at any point. -/
def Kept (apply : ε → σ → Outcome σ χ Unit) (guard : ε → Recorded σ ε → Prop)
    (fact : Recorded σ ε → Prop) (action : ε) : Prop :=
  ∀ state, fact state → guard action state ∧
    (recording apply action state).Ends (fun _ => fact) fun _ => fact

section Rules

variable {apply : ε → σ → Outcome σ χ Unit} {guard : ε → Recorded σ ε → Prop}
  {fact : Recorded σ ε → Prop}

theorem recorded_bind (program : Program σ ε χ α) (rest : α → Program σ ε χ β) :
    (program >>= rest).recorded = program.recorded >>= fun value => (rest value).recorded := by
  induction program with
  | done result => rfl
  | throw raised => rfl
  | fault => rfl
  | look next ih => exact congrArg look (funext fun state => ih state.1)
  | act action next ih => exact congrArg (act action) (funext fun error => ih error)

theorem recorded_catching (program : Program σ ε χ α) (handler : χ → Program σ ε χ α) :
    (program.catching handler).recorded =
      program.recorded.catching fun error => (handler error).recorded := by
  induction program with
  | done result => rfl
  | throw raised => rfl
  | fault => rfl
  | look next ih => exact congrArg look (funext fun state => ih state.1)
  | act action next ih => exact congrArg (act action) (funext fun error => ih error)

theorem recorded_perform (action : ε) :
    (perform action : Program σ ε χ Unit).recorded = perform action := by
  refine congrArg (act action) (funext fun error => ?_)
  cases error <;> rfl

theorem wp_recorded_get {Q : α → Recorded σ ε → Prop} {E : χ → Recorded σ ε → Prop}
    {rest : σ → Program σ ε χ α} {state : Recorded σ ε} :
    (get >>= rest).recorded.wp (recording apply) guard Q E state ↔
      (rest state.1).recorded.wp (recording apply) guard Q E state := Iff.rfl

theorem wp_recorded_perform {Q : α → Recorded σ ε → Prop} {E : χ → Recorded σ ε → Prop} {action : ε}
    {rest : Unit → Program σ ε χ α} {state : Recorded σ ε} :
    (perform action >>= rest).recorded.wp (recording apply) guard Q E state ↔
      guard action state ∧ (recording apply action state).Ends
        (fun _ now => (rest ()).recorded.wp (recording apply) guard Q E now) E := by
  rw [recorded_bind, wp_bind, recorded_perform]
  exact Iff.rfl

theorem recording_ends {Q : Unit → Recorded σ ε → Prop} {E : χ → Recorded σ ε → Prop} {action : ε}
    {state : Recorded σ ε}
    (ends : (apply action state.1).Ends (fun _ after => Q () (after, state.2 ++ [(action, state.1)]))
      fun error after => E error (after, state.2 ++ [(action, state.1)])) :
    (recording apply action state).Ends Q E := by
  unfold recording
  cases applied : apply action state.1 with
  | returned after value =>
      rw [applied] at ends
      exact ends
  | thrown after error =>
      rw [applied] at ends
      exact ends
  | fault => trivial

section Leads

variable {first middle last failed : Recorded σ ε → Prop}

theorem Tries.bind {program : Program σ ε χ α} {rest : α → Program σ ε χ β}
    (start : Tries apply guard first middle failed program)
    (later : ∀ value, Tries apply guard middle last failed (rest value)) :
    Tries apply guard first last failed (program >>= rest) := by
  intro state holds
  rw [recorded_bind, wp_bind]
  exact wp_mono (start state holds) (fun value after => later value after) fun _ _ after => after

theorem Tries.mono {program : Program σ ε χ α} {before after wrong : Recorded σ ε → Prop}
    (tries : Tries apply guard first last failed program) (weaker : ∀ state, before state → first state)
    (stronger : ∀ state, last state → after state) (worse : ∀ state, failed state → wrong state) :
    Tries apply guard before after wrong program :=
  fun state holds => wp_mono (tries state (weaker state holds)) (fun _ => stronger) fun _ => worse

theorem Leads.bind {program : Program σ ε χ α} {rest : α → Program σ ε χ β}
    (start : Leads apply guard first middle program)
    (later : ∀ value, Leads apply guard middle last (rest value))
    (thrown : ∀ state, middle state → last state) : Leads apply guard first last (program >>= rest) :=
  Tries.bind (start.mono (fun _ holds => holds) (fun _ holds => holds) thrown) later

theorem Leads.mono {program : Program σ ε χ α} {before after : Recorded σ ε → Prop}
    (leads : Leads apply guard first last program) (weaker : ∀ state, before state → first state)
    (stronger : ∀ state, last state → after state) : Leads apply guard before after program :=
  Tries.mono leads weaker stronger stronger

theorem Tries.catching {program : Program σ ε χ α} {handler : χ → Program σ ε χ α}
    (start : Tries apply guard first last middle program)
    (later : ∀ error, Tries apply guard middle last failed (handler error)) :
    Tries apply guard first last failed (program.catching handler) := by
  intro state holds
  rw [recorded_catching, wp_catching]
  exact wp_mono (start state holds) (fun _ _ after => after) fun error after => later error after

theorem leads_pure (value : α) (weaker : ∀ state, first state → last state) :
    Tries apply guard first last failed (pure value : Program σ ε χ α) := weaker

theorem leads_fault : Tries apply guard first last failed (fault : Program σ ε χ α) :=
  fun _ _ => trivial

/-- The state in front of the program can be named. -/
theorem leads_here {program : Program σ ε χ α}
    (named : ∀ state, Tries apply guard (fun now => first now ∧ now.1 = state) last failed program) :
    Tries apply guard first last failed program :=
  fun state holds => named state.1 state ⟨holds, rfl⟩

theorem leads_look {rest : σ → Program σ ε χ α}
    (later : ∀ state, Tries apply guard first last failed (rest state)) :
    Tries apply guard first last failed (get >>= rest) :=
  fun state holds => later state.1 state holds

/-- What follows a look at the state, with the state named. -/
theorem leads_get {rest : σ → Program σ ε χ α}
    (later : ∀ state, Tries apply guard (fun now => first now ∧ now.1 = state) last failed (rest state)) :
    Tries apply guard first last failed (get >>= rest) :=
  fun state holds => later state.1 state ⟨holds, rfl⟩

theorem leads_perform {action : ε}
    (step : ∀ state, first state → guard action state ∧
      (recording apply action state).Ends (fun _ => last) fun _ => failed) :
    Tries apply guard first last failed (perform action : Program σ ε χ Unit) := by
  intro state holds
  rw [recorded_perform]
  exact step state holds

end Leads

theorem stays_pure (value : α) : Stays apply guard fact (pure value : Program σ ε χ α) :=
  fun _ holds => holds

theorem stays_throw (error : χ) : Stays apply guard fact (throw error : Program σ ε χ α) :=
  fun _ holds => holds

theorem stays_fault : Stays apply guard fact (fault : Program σ ε χ α) := leads_fault

theorem Stays.bind {program : Program σ ε χ α} {rest : α → Program σ ε χ β}
    (first : Stays apply guard fact program) (later : ∀ value, Stays apply guard fact (rest value)) :
    Stays apply guard fact (program >>= rest) :=
  Leads.bind first later fun _ holds => holds

theorem Kept.stays {action : ε} (kept : Kept apply guard fact action) :
    Stays apply guard fact (perform action : Program σ ε χ Unit) := leads_perform kept

/-- What holds of the states of a run holds of its recorded states. -/
theorem wp_recorded {guard : ε → σ → Prop} {Q : α → σ → Prop} {E : χ → σ → Prop}
    {program : Program σ ε χ α} {state : σ}
    (holds : program.wp apply guard Q E state) (past : List (ε × σ)) :
    program.recorded.wp (recording apply) (fun action now => guard action now.1)
      (fun value now => Q value now.1) (fun error now => E error now.1) (state, past) := by
  induction program generalizing state past with
  | done result => exact holds
  | throw raised => exact holds
  | fault => trivial
  | look next ih => exact ih state holds past
  | act action next ih =>
      have later := holds.2
      refine ⟨holds.1, recording_ends ?_⟩
      simp only
      cases applied : apply action state with
      | returned after result =>
          rw [applied] at later
          exact ih none later _
      | thrown after raised =>
          rw [applied] at later
          exact ih (some raised) later _
      | fault => trivial

/-- What the actions that meet the guard keep is kept by a program that heeds it. -/
theorem Heeds.stays {heeded : ε → σ → Prop} {program : Program σ ε χ α}
    (heeds : Heeds apply heeded program)
    (kept : ∀ action state, heeded action state.1 → fact state → guard action state ∧
      (recording apply action state).Ends (fun _ => fact) fun _ => fact) :
    Stays apply guard fact program := by
  intro state holds
  have walked := wp_keeping (fun action state heeded holds => (kept action state heeded holds).2)
    (wp_recorded (heeds state.1) state.2) holds
  refine wp_weaken (wp_mono walked ?_ ?_) fun action state both => (kept action state both.1 both.2).1
  · exact fun _ _ both => both.2
  · exact fun _ _ both => both.2

/-- What every action keeps is kept by every program. -/
theorem stays_of_kept (kept : ∀ action, Kept apply guard fact action) (program : Program σ ε χ α) :
    Stays apply guard fact program := by
  induction program with
  | done result => exact fun state holds => holds
  | throw raised => exact fun state holds => holds
  | fault => exact fun state holds => trivial
  | look next ih => exact fun state holds => ih state.1 state holds
  | act action next ih =>
      intro state holds
      obtain ⟨now, later⟩ := kept action state holds
      exact ⟨now, Ends.mono later (fun _ after => ih none after) fun error after => ih (some error) after⟩

/-- At each moment the invariant holds of the moments before it. -/
theorem moment_recorded {Q : α → Recorded σ ε → Prop}
    {E : χ → Recorded σ ε → Prop} {program : Program σ ε χ α} {state : σ} {past : List (ε × σ)}
    (holds : program.recorded.wp (recording apply) guard Q E (state, past))
    {before after : List (ε × σ)} {moment : ε × σ}
    (split : (program.run apply state).1 = before ++ moment :: after) :
    guard moment.1 (moment.2, past ++ before) := by
  induction program generalizing state past before with
  | done result => exact absurd split (by simp [run])
  | throw raised => exact absurd split (by simp [run])
  | fault => exact absurd split (by simp [run])
  | look next ih => exact ih state holds split
  | act action next ih =>
      simp only [run] at split
      cases before with
      | nil =>
          rw [List.nil_append, List.cons.injEq] at split
          rw [← split.1, List.append_nil]
          exact holds.1
      | cons first before =>
          rw [List.cons_append, List.cons.injEq] at split
          obtain ⟨rfl, split⟩ := split
          have later := holds.2
          unfold recording at later
          rw [show past ++ (action, state) :: before = past ++ [(action, state)] ++ before by simp]
          cases applied : apply action state with
          | returned after result =>
              simp only [applied] at later split
              exact ih none later split
          | thrown after raised =>
              simp only [applied] at later split
              exact ih (some raised) later split
          | fault =>
              simp only [applied] at split
              exact absurd split (by simp)

theorem moment_meets {guard : ε → σ → Prop} {Q : α → σ → Prop} {E : χ → σ → Prop}
    {program : Program σ ε χ α} {state : σ} (holds : program.wp apply guard Q E state) {moment : ε × σ}
    (member : moment ∈ (program.run apply state).1) : guard moment.1 moment.2 := by
  obtain ⟨before, after, split⟩ := List.append_of_mem member
  exact moment_recorded (wp_recorded holds []) split

theorem outcome_recorded {Q : α → Recorded σ ε → Prop}
    {E : χ → Recorded σ ε → Prop} {program : Program σ ε χ α} {state : σ} {past : List (ε × σ)}
    (holds : program.recorded.wp (recording apply) guard Q E (state, past)) :
    (program.run apply state).2.Ends
      (fun value after => Q value (after, past ++ (program.run apply state).1))
      fun error after => E error (after, past ++ (program.run apply state).1) := by
  induction program generalizing state past with
  | done result =>
      rw [run, List.append_nil]
      exact holds
  | throw raised =>
      rw [run, List.append_nil]
      exact holds
  | fault => trivial
  | look next ih => exact ih state holds
  | act action next ih =>
      have later := holds.2
      unfold recording at later
      simp only [run]
      cases applied : apply action state with
      | returned after result =>
          simp only [applied] at later ⊢
          rw [show past ++ (action, state) :: ((next none).run apply after).1 =
            past ++ [(action, state)] ++ ((next none).run apply after).1 by simp]
          exact ih none later
      | thrown after raised =>
          simp only [applied] at later ⊢
          rw [show past ++ (action, state) :: ((next (some raised)).run apply after).1 =
            past ++ [(action, state)] ++ ((next (some raised)).run apply after).1 by simp]
          exact ih (some raised) later
      | fault => trivial

end Rules

end Program

end Ijson
