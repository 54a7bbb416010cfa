/-
Outcomes of an imperative routine that may throw.

An exception leaves the state as far as the routine had come.  A fault stands
for undefined behaviour and for a lock that is never obtained: nothing is said
about what follows it.
-/

namespace Ijson

inductive Outcome (σ ε α : Type) where
  | returned (state : σ) (value : α)
  | thrown (state : σ) (error : ε)
  | fault

end Ijson
