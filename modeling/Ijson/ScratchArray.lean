/-
Text written from the right into an array of fixed length.

A loop gives its characters last one first; they are stored downwards from an
index, and the part of the array behind the index is the text.  A store outside
of the array has no result.
-/

import Mathlib.Data.Nat.Digits.Lemmas

namespace Ijson

namespace ScratchArray

variable {σ α : Type}

def store (scratch : List α) (i : Int) (a : α) : Option (List α) :=
  if 0 ≤ i ∧ i < scratch.length then some (scratch.set i.toNat a) else none

variable (next : σ → Option (α × σ))

/-- The text of the loop. -/
def emit : Nat → σ → List α
  | 0, _ => []
  | fuel + 1, state =>
      match next state with
      | none => []
      | some (a, after) => emit fuel after ++ [a]

/-- The loop ends after at most so many steps. -/
def Ends : Nat → σ → Prop
  | 0, state => next state = none
  | fuel + 1, state =>
      match next state with
      | none => True
      | some (_, after) => Ends fuel after

/-- The loop with its stores; without an end it has no result. -/
def fill : Nat → σ → List α → Int → Option (List α × Int)
  | 0, state, scratch, i =>
      match next state with
      | none => some (scratch, i)
      | some _ => none
  | fuel + 1, state, scratch, i =>
      match next state with
      | none => some (scratch, i)
      | some (a, after) => (store scratch i a).bind fun scratch => fill fuel after scratch (i - 1)

variable {next}

theorem drop_set (scratch : List α) {i : Nat} (inside : i < scratch.length) (a : α) :
    (scratch.set i a).drop i = a :: scratch.drop (i + 1) := by
  have stays : i < (scratch.set i a).length := by rw [List.length_set]; exact inside
  rw [List.drop_eq_getElem_cons stays, List.getElem_set_self, List.drop_set_of_lt (Nat.lt_succ_self i)]

theorem store_inside {scratch : List α} {i : Nat} (inside : i < scratch.length) (a : α) :
    store scratch i a = some (scratch.set i a) := by
  rw [store, if_pos ⟨Int.natCast_nonneg i, Int.ofNat_lt.mpr inside⟩, Int.toNat_natCast]

/-- With room for the text no store is outside, and the array has the text in front of
what was behind the index. -/
theorem fill_eq {fuel : Nat} {state : σ} (ends : Ends next fuel state) {scratch : List α} {i : Nat}
    (inside : i ≤ scratch.length) (room : (emit next fuel state).length ≤ i) :
    ∃ after, fill next fuel state scratch ((i : Int) - 1) =
        some (after, ((i - (emit next fuel state).length : Nat) : Int) - 1) ∧
      after.length = scratch.length ∧
      after.drop (i - (emit next fuel state).length) = emit next fuel state ++ scratch.drop i := by
  induction fuel generalizing state scratch i with
  | zero =>
      have nothing : next state = none := ends
      refine ⟨scratch, ?_, rfl, rfl⟩
      rw [fill, nothing]
      rfl
  | succ fuel ih =>
      cases found : next state with
      | none =>
          refine ⟨scratch, ?_, rfl, ?_⟩
          · rw [fill, emit, found]
            rfl
          · rw [emit, found]
            rfl
      | some pair =>
          obtain ⟨a, later⟩ := pair
          have text : emit next (fuel + 1) state = emit next fuel later ++ [a] := by rw [emit, found]
          have endsLater : Ends next fuel later := by
            rw [Ends, found] at ends
            exact ends
          rw [text, List.length_append, List.length_singleton] at room ⊢
          obtain ⟨k, rfl⟩ : ∃ k, i = k + 1 := ⟨i - 1, by omega⟩
          have index : ((k + 1 : Nat) : Int) - 1 = k := by omega
          have stores := store_inside (Nat.lt_of_succ_le inside) a
          obtain ⟨after, filled, length, written⟩ := @ih later endsLater (scratch.set k a) k
            (by rw [List.length_set]; omega) (by omega)
          have places : k + 1 - ((emit next fuel later).length + 1) = k - (emit next fuel later).length := by omega
          refine ⟨after, ?_, by rw [length, List.length_set], ?_⟩
          · rw [fill, found, index, places]
            simp only
            rw [stores, Option.bind_some]
            exact filled
          · rw [places, written, drop_set scratch (Nat.lt_of_succ_le inside), List.append_assoc]
            rfl

/-! ### Digits -/

/-- One digit, the last first. -/
def digitStep (base : Nat) (write : Nat → α) (n : Nat) : Option (α × Nat) :=
  if n = 0 then none else some (write (n % base), n / base)

theorem emit_digits {base : Nat} (large : 1 < base) (write : Nat → α) (fuel : Nat) {n : Nat}
    (digits : n < base ^ fuel) :
    Ends (digitStep base write) fuel n ∧
      emit (digitStep base write) fuel n = ((Nat.digits base n).map write).reverse := by
  induction fuel generalizing n with
  | zero =>
      obtain rfl : n = 0 := by simpa using digits
      exact ⟨rfl, by simp [emit]⟩
  | succ fuel ih =>
      by_cases zero : n = 0
      · rw [zero, Ends, emit, digitStep, if_pos rfl]
        exact ⟨trivial, by simp⟩
      · have smaller : n / base < base ^ fuel := by
          rw [Nat.div_lt_iff_lt_mul (Nat.lt_trans Nat.zero_lt_one large), ← Nat.pow_succ]
          exact digits
        obtain ⟨ends, text⟩ := ih smaller
        rw [Ends, emit, digitStep, if_neg zero]
        refine ⟨ends, ?_⟩
        simp only
        rw [text, Nat.digits_def' large (Nat.pos_of_ne_zero zero), List.map_cons, List.reverse_cons]

theorem emit_length {base : Nat} (large : 1 < base) (write : Nat → α) (fuel : Nat) {n k : Nat}
    (digits : n < base ^ fuel) (bound : n < base ^ k) :
    (emit (digitStep base write) fuel n).length ≤ k := by
  rw [(emit_digits large write fuel digits).2, List.length_reverse, List.length_map]
  exact (Nat.digits_length_le_iff large n).mpr bound

/-- A loop that reads digits, the first first, in wrapping arithmetic comes from the text of
a number to the number. -/
theorem read_digits {β : Type} {base : Nat} (large : 1 < base) (write : Nat → α) (loop : List α → Int → β)
    (wrap : Int → Int)
    (step : ∀ d, d < base → ∀ rest value, loop (write d :: rest) value = loop rest (wrap (value * base + d)))
    (wraps : ∀ value d : Int, wrap (wrap value * base + d) = wrap (value * base + d)) (n : Nat) (rest : List α) :
    loop (((Nat.digits base n).map write).reverse ++ rest) (wrap 0) = loop rest (wrap n) := by
  induction n using Nat.strong_induction_on generalizing rest with
  | h n ih =>
      by_cases zero : n = 0
      · rw [zero]
        simp
      · have positive := Nat.pos_of_ne_zero zero
        rw [Nat.digits_def' large positive, List.map_cons, List.reverse_cons, List.append_assoc,
          List.singleton_append, ih (n / base) (Nat.div_lt_self positive large),
          step _ (Nat.mod_lt n (Nat.lt_trans Nat.zero_lt_one large)), wraps]
        congr 2
        have whole := Nat.div_add_mod n base
        rw [Nat.mul_comm] at whole
        exact_mod_cast whole

end ScratchArray

end Ijson
