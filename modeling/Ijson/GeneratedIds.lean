/-
The ids of `generate_id` over a whole run.

The counter is the upper half of a 32-bit number and the random part the lower
half, so an id comes back only when the counter has gone round.
-/

import Ijson.Machine
import Ijson.Numerals
import Ijson.Recording
import Ijson.Registrations

namespace Ijson

/-! ### Numbers -/

/-- The id that `generate_id` makes at a moment, if it is called there. -/
def generates (moment : Action × Server) : Option Bytes :=
  let made := fun after : Server =>
    if after.generated = moment.2.generated then none
    else some (generateId moment.2.generated moment.1.random)
  match moment.1.apply moment.2 with
  | .returned after _ => made after
  | .thrown after _ => made after
  | .fault => none

def calls (moment : Action × Server) : Bool := (generates moment).isSome

theorem apply_calls (action : Action) (s : Server) :
    (action.apply s).Ends (fun _ t => t.generated = s.generated + if calls (action, s) then 1 else 0)
      fun _ t => t.generated = s.generated + if calls (action, s) then 1 else 0 := by
  have makes := Server.apply_counts action s
  have counted : ∀ t : Server, (t.generated = s.generated ∨ t.generated = s.generated + 1) →
      generates (action, s) = (if t.generated = s.generated then none
        else some (generateId s.generated action.random)) →
      t.generated = s.generated + if calls (action, s) then 1 else 0 := by
    intro t cases generatesEq
    rw [calls, generatesEq]
    rcases cases with same | more
    · simp [same]
    · simp [more]
  cases applied : action.apply s with
  | returned t value =>
      rw [applied] at makes
      exact counted t makes (by simp only [generates, applied])
  | thrown t error =>
      rw [applied] at makes
      exact counted t makes (by simp only [generates, applied])
  | fault => trivial

/-- A run of the server with all its moments. -/
inductive Trail : List (Action × Server) → Server → Prop where
  | new (threads : Nat) (jsonrpc2 : Bool) (version : Bytes) (startTime : Nat) :
      Trail [] (Server.new threads jsonrpc2 version startTime)
  | step {moments : List (Action × Server)} {s after : Server} (input : Input) :
      Trail moments s → input.Enabled s → (input.run s).2 = .returned after () →
      Trail (moments ++ (input.run s).1) after

theorem split_append {α : Type} {left right before after : List α} {element : α}
    (split : left ++ right = before ++ element :: after) :
    (∃ rest, left = before ++ element :: rest) ∨
      ∃ front, before = left ++ front ∧ right = front ++ element :: after := by
  rcases List.append_eq_append_iff.mp split with ⟨front, beforeEq, rightEq⟩ | ⟨rest, leftEq, restEq⟩
  · exact Or.inr ⟨front, beforeEq, rightEq⟩
  · cases rest with
    | nil => exact Or.inr ⟨[], by simpa using leftEq.symm, by simpa using restEq.symm⟩
    | cons first rest =>
        rw [List.cons_append, List.cons.injEq] at restEq
        exact Or.inl ⟨rest, by rw [leftEq, restEq.1]⟩

/-- What each operation keeps holds at every moment of a run, with the moments before
it. -/
theorem Trail.holds {fact : Program.Recorded Server Action → Prop}
    (start : ∀ threads jsonrpc2 version startTime,
      fact (Server.new threads jsonrpc2 version startTime, []))
    (whole : ∀ input t past, fact (t, past) → (Input.routine t input).recorded.wp
      (Program.recording Action.apply) (fun _ state => fact state) (fun _ => fact) (fun _ => fact) (t, past))
    {moments : List (Action × Server)} {s : Server} (trail : Trail moments s) :
    fact (s, moments) ∧ ∀ input before moment after,
      moments ++ (Input.run input s).1 = before ++ moment :: after → fact (moment.2, before) := by
  have earlier : fact (s, moments) ∧ ∀ before moment after,
      moments = before ++ moment :: after → fact (moment.2, before) := by
    induction trail with
    | new threads jsonrpc2 version startTime =>
        refine ⟨start threads jsonrpc2 version startTime, fun before moment after split => ?_⟩
        exact absurd split (by simp)
    | @step moments s after input _ _ returned ih =>
        have holds := whole input s moments ih.1
        refine ⟨?_, fun before moment later split => ?_⟩
        · have ends := Program.outcome_recorded holds
          change (input.run s).2.Ends _ _ at ends
          rw [returned] at ends
          exact ends
        · rcases split_append split with ⟨rest, inside⟩ | ⟨front, beforeEq, inside⟩
          · exact ih.2 before moment rest inside
          · rw [beforeEq]
            exact Program.moment_recorded holds inside
  refine ⟨earlier.1, fun input before moment after split => ?_⟩
  rcases split_append split with ⟨rest, inside⟩ | ⟨front, beforeEq, inside⟩
  · exact earlier.2 before moment rest inside
  · rw [beforeEq]
    exact Program.moment_recorded (whole input s moments earlier.1) inside

theorem Trail.invariant {fact : Program.Recorded Server Action → Prop}
    (start : ∀ threads jsonrpc2 version startTime,
      fact (Server.new threads jsonrpc2 version startTime, []))
    (kept : ∀ action state, fact state →
      (Program.recording Action.apply action state).Ends (fun _ => fact) fun _ => fact)
    {moments : List (Action × Server)} {s : Server} (trail : Trail moments s) :
    fact (s, moments) ∧ ∀ input before moment after,
      moments ++ (Input.run input s).1 = before ++ moment :: after → fact (moment.2, before) :=
  trail.holds start fun _ t past holds =>
    Program.stays_of_kept (fun action state holds => ⟨holds, kept action state holds⟩) _ (t, past) holds

theorem Trail.heeded {guard : Action → Server → Prop} {fact : Program.Recorded Server Action → Prop}
    (start : ∀ threads jsonrpc2 version startTime,
      fact (Server.new threads jsonrpc2 version startTime, []))
    (heeds : ∀ (input : Input) s, Routine.Heeds guard (input.routine s))
    (kept : ∀ action state, guard action state.1 → fact state →
      (Program.recording Action.apply action state).Ends (fun _ => fact) fun _ => fact)
    {moments : List (Action × Server)} {s : Server} (trail : Trail moments s) :
    fact (s, moments) ∧ ∀ input before moment after,
      moments ++ (Input.run input s).1 = before ++ moment :: after → fact (moment.2, before) :=
  trail.holds start fun input t past holds =>
    (heeds input t).stays (fun action state met holds => ⟨holds, kept action state met holds⟩) (t, past) holds

theorem Trail.counts {moments : List (Action × Server)} {s : Server} (trail : Trail moments s) :
    s.generated = moments.countP calls ∧
      ∀ before moment after, moments = before ++ moment :: after →
        moment.2.generated = before.countP calls := by
  induction trail with
  | new threads jsonrpc2 version startTime =>
      refine ⟨rfl, fun before moment after split => ?_⟩
      exact absurd split (by simp)
  | @step moments s after input _ _ returned ih =>
      refine ⟨?_, fun before moment later split => ?_⟩
      · have ends : (input.run s).2.Ends
            (fun _ t => t.generated = s.generated + (input.run s).1.countP calls)
            fun _ t => t.generated = s.generated + (input.run s).1.countP calls :=
          Program.run_counts apply_calls (input.routine s)
        rw [returned] at ends
        rw [List.countP_append, ← ih.1]
        exact ends
      · rcases split_append split with ⟨rest, inside⟩ | ⟨front, beforeEq, inside⟩
        · exact ih.2 before moment rest inside
        · rw [beforeEq, List.countP_append, ← ih.1]
          exact Program.moment_counts apply_calls inside

theorem generates_eq {moment : Action × Server} {id : Bytes} (made : generates moment = some id) :
    id = generateId moment.2.generated moment.1.random := by
  have shape : ∀ after : Server, (if after.generated = moment.2.generated then none
      else some (generateId moment.2.generated moment.1.random)) = some id →
      id = generateId moment.2.generated moment.1.random := by
    intro after made
    split at made
    · cases made
    · exact (Option.some.inj made).symm
  unfold generates at made
  simp only at made
  split at made
  · exact shape _ made
  · exact shape _ made
  · cases made

def momentsAll : List Input → Server → List (Action × Server)
  | [], _ => []
  | input :: rest, s =>
      (input.run s).1 ++
        match (input.run s).2 with
        | .returned after _ => momentsAll rest after
        | _ => []

theorem trail_afterAll {inputs : List Input} {moments : List (Action × Server)} {s after : Server}
    (trail : Trail moments s) (afterEq : afterAll inputs s = some after) :
    Trail (moments ++ momentsAll inputs s) after := by
  induction inputs generalizing moments s with
  | nil =>
      cases afterEq
      rw [momentsAll, List.append_nil]
      exact trail
  | cons input rest ih =>
      rw [afterAll] at afterEq
      split at afterEq
      · rename_i enabled
        split at afterEq
        · rename_i middle _ returned
          rw [momentsAll, returned, ← List.append_assoc]
          exact ih (.step input trail enabled returned) afterEq
        · cases afterEq
      · cases afterEq

end Ijson
