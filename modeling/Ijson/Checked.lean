/-
Routines over a state that may throw, with total correctness.

A fault is a read or a write outside of what may be used, and also a loop that
has not ended when its fuel is gone.  `Meets` allows neither; an exception leaves
the state as far as the routine had come.
-/

import Ijson.Outcome

namespace Ijson

/-- A routine over the state `σ` with the exceptions `ε`. -/
def Checked (σ ε α : Type) : Type := σ → Outcome σ ε α

namespace Checked

variable {σ ε α β : Type}

instance : Monad (Checked σ ε) where
  pure a := fun s => .returned s a
  bind first next := fun s =>
    match first s with
    | .returned t a => next a t
    | .thrown t error => .thrown t error
    | .fault => .fault

/-- The state. -/
def look : Checked σ ε σ := fun s => .returned s s

def change (f : σ → σ) : Checked σ ε Unit := fun s => .returned (f s) ()

def raise (error : ε) : Checked σ ε α := fun s => .thrown s error

def fault : Checked σ ε α := fun _ => .fault

/-- A loop with its local variables: each round gives new ones or the result. -/
def iterate : Nat → (β → Checked σ ε (β ⊕ α)) → β → Checked σ ε α
  | 0, _, _ => fault
  | fuel + 1, round, locals => do
      match ← round locals with
      | .inl locals => iterate fuel round locals
      | .inr result => return result

/-- The routine ends without a fault, returns with `Q` or throws with `E`. -/
def Meets (routine : Checked σ ε α) (s : σ) (Q : α → σ → Prop) (E : ε → σ → Prop) : Prop :=
  match routine s with
  | .returned t a => Q a t
  | .thrown t error => E error t
  | .fault => False

variable {Q : α → σ → Prop} {E : ε → σ → Prop} {s : σ}

@[simp] theorem meets_pure (a : α) : Meets (pure a) s Q E ↔ Q a s := Iff.rfl

@[simp] theorem meets_look {Q : σ → σ → Prop} : Meets look s Q E ↔ Q s s := Iff.rfl

@[simp] theorem meets_change {Q : Unit → σ → Prop} (f : σ → σ) : Meets (change f) s Q E ↔ Q () (f s) := Iff.rfl

@[simp] theorem meets_raise (error : ε) : Meets (raise error) s Q E ↔ E error s := Iff.rfl

@[simp] theorem meets_bind (first : Checked σ ε β) (next : β → Checked σ ε α) :
    Meets (first >>= next) s Q E ↔ Meets first s (fun b t => Meets (next b) t Q E) E := by
  unfold Meets
  change (match (match first s with
    | .returned t a => next a t
    | .thrown t error => .thrown t error
    | .fault => .fault) with
    | .returned t a => Q a t
    | .thrown t error => E error t
    | .fault => False) ↔ _
  cases first s <;> exact Iff.rfl

theorem Meets.mono {routine : Checked σ ε α} {Q' : α → σ → Prop} {E' : ε → σ → Prop} (meets : Meets routine s Q E)
    (returns : ∀ a t, Q a t → Q' a t) (throws : ∀ error t, E error t → E' error t) : Meets routine s Q' E' := by
  unfold Meets at meets ⊢
  cases result : routine s with
  | returned t a =>
      rw [result] at meets
      exact returns a t meets
  | thrown t error =>
      rw [result] at meets
      exact throws error t meets
  | fault =>
      rw [result] at meets
      exact meets

/-- A routine that meets its specification has an outcome. -/
theorem Meets.outcome {routine : Checked σ ε α} (meets : Meets routine s Q E) :
    (∃ t a, routine s = .returned t a ∧ Q a t) ∨ ∃ t error, routine s = .thrown t error ∧ E error t := by
  unfold Meets at meets
  cases result : routine s with
  | returned t a =>
      rw [result] at meets
      exact Or.inl ⟨t, a, rfl, meets⟩
  | thrown t error =>
      rw [result] at meets
      exact Or.inr ⟨t, error, rfl, meets⟩
  | fault =>
      rw [result] at meets
      exact meets.elim

/-- A loop with an invariant and a measure that each round makes smaller. -/
theorem meets_iterate {round : β → Checked σ ε (β ⊕ α)} (invariant : β → σ → Prop) (measure : β → σ → Nat)
    (step : ∀ locals t, invariant locals t →
      Meets (round locals) t
        (fun after u =>
          match after with
          | .inl later => invariant later u ∧ measure later u < measure locals t
          | .inr result => Q result u) E)
    {fuel : Nat} {locals : β} (holds : invariant locals s) (enough : measure locals s < fuel) :
    Meets (iterate fuel round locals) s Q E := by
  induction fuel generalizing locals s with
  | zero => exact absurd enough (Nat.not_lt_zero _)
  | succ fuel ih =>
      rw [iterate, meets_bind]
      refine (step locals s holds).mono ?_ (fun _ _ throws => throws)
      intro after u post
      cases after with
      | inl later => exact ih post.1 (Nat.lt_of_lt_of_le post.2 (Nat.le_of_lt_succ enough))
      | inr result => exact post

end Checked

end Ijson
