/-
Threads that take mutexes in a fixed order.

A thread is a tree of lock operations; the branches of a `try_lock` are those it
has.  One thread takes a step at a time, in any order.  A mutex can be lost: it
is destroyed while it is held, or nobody is left who would unlock it.  When every
thread only waits for a mutex ranked above all it holds, nothing but a lost
mutex can stop them.
-/

import Mathlib.Algebra.BigOperators.Group.Finset.Basic
import Mathlib.Algebra.Order.BigOperators.Group.Finset
import Mathlib.Data.Fintype.Basic
import Mathlib.Data.Set.Finite.Range
import Mathlib.Order.Preorder.Finite
import Mathlib.Logic.Function.Basic

namespace Ijson

inductive LockProgram (κ : Type) where
  | done
  | acquire (lock : κ) (next : LockProgram κ)
  | release (lock : κ) (next : LockProgram κ)
  | lose (lock : κ) (next : LockProgram κ)
  | attempt (lock : κ) (taken refused : LockProgram κ)

namespace LockProgram

variable {κ ρ : Type}

/-- One program after the other. -/
def seq : LockProgram κ → LockProgram κ → LockProgram κ
  | .done, later => later
  | .acquire lock next, later => .acquire lock (next.seq later)
  | .release lock next, later => .release lock (next.seq later)
  | .lose lock next, later => .lose lock (next.seq later)
  | .attempt lock taken refused, later => .attempt lock (taken.seq later) (refused.seq later)

def inTurn (programs : List (LockProgram κ)) : LockProgram κ := programs.foldr seq .done

def acquireAll (locks : List κ) (later : LockProgram κ) : LockProgram κ := locks.foldr .acquire later

def releaseAll (locks : List κ) (later : LockProgram κ) : LockProgram κ := locks.foldr .release later

/-- A `lock_guard`. -/
def holding (lock : κ) (body : LockProgram κ) : LockProgram κ :=
  .acquire lock (body.seq (.release lock .done))

/-- No run has more steps. -/
def size : LockProgram κ → Nat
  | .done => 0
  | .acquire _ next => next.size + 1
  | .release _ next => next.size + 1
  | .lose _ next => next.size + 1
  | .attempt _ taken refused => max taken.size refused.size + 1

/-- The mutex it waits for at once. -/
def first : LockProgram κ → Option κ
  | .acquire lock _ => some lock
  | _ => none

/-- Some branch loses the mutex. -/
def Loses (lock : κ) : LockProgram κ → Prop
  | .done => False
  | .acquire _ next => next.Loses lock
  | .release _ next => next.Loses lock
  | .lose other next => other = lock ∨ next.Loses lock
  | .attempt _ taken refused => taken.Loses lock ∨ refused.Loses lock

/-- Some branch takes the mutex or gives it back. -/
def Names (lock : κ) : LockProgram κ → Prop
  | .done => False
  | .acquire other next => other = lock ∨ next.Names lock
  | .release other next => other = lock ∨ next.Names lock
  | .lose other next => other = lock ∨ next.Names lock
  | .attempt other taken refused => other = lock ∨ taken.Names lock ∨ refused.Names lock

/-- What may be left of a program at some moment. -/
inductive Onward : LockProgram κ → LockProgram κ → Prop where
  | here (program : LockProgram κ) : Onward program program
  | acquire {next left : LockProgram κ} (lock : κ) : Onward next left → Onward (.acquire lock next) left
  | release {next left : LockProgram κ} (lock : κ) : Onward next left → Onward (.release lock next) left
  | lose {next left : LockProgram κ} (lock : κ) : Onward next left → Onward (.lose lock next) left
  | taken {next left : LockProgram κ} (lock : κ) (refused : LockProgram κ) :
      Onward next left → Onward (.attempt lock next refused) left
  | refused {next left : LockProgram κ} (lock : κ) (taken : LockProgram κ) :
      Onward next left → Onward (.attempt lock taken next) left

/-- With `held` taken before, every mutex that is waited for ranks above those
held, only what is held is given back, and `after` holds of what is held in the
end. -/
def Orderly [LT ρ] (rank : κ → ρ) : LockProgram κ → Set κ → (Set κ → Prop) → Prop
  | .done, held, after => after held
  | .acquire lock next, held, after =>
      (∀ other ∈ held, rank other < rank lock) ∧ next.Orderly rank (insert lock held) after
  | .release lock next, held, after => lock ∈ held ∧ next.Orderly rank (held \ {lock}) after
  | .lose lock next, held, after => lock ∈ held ∧ next.Orderly rank (held \ {lock}) after
  | .attempt lock taken refused, held, after =>
      lock ∉ held ∧ taken.Orderly rank (insert lock held) after ∧ refused.Orderly rank held after

end LockProgram

inductive LockState (τ : Type) where
  | free
  | heldBy (thread : τ)
  | lost
  deriving DecidableEq

structure Threads (τ κ : Type) where
  rest : τ → LockProgram κ
  locks : κ → LockState τ

namespace Threads

variable {τ κ : Type}

def start (programs : τ → LockProgram κ) : Threads τ κ :=
  { rest := programs
    locks := fun _ => .free }

section Steps

variable [DecidableEq τ] [DecidableEq κ]

def put (s : Threads τ κ) (t : τ) (next : LockProgram κ) (lock : κ) (state : LockState τ) : Threads τ κ :=
  { rest := Function.update s.rest t next
    locks := Function.update s.locks lock state }

/-- A step of one thread; `none` when it has ended or has to wait.  To give back
what one does not hold is undefined. -/
def step (s : Threads τ κ) (t : τ) : Option (Threads τ κ) :=
  match s.rest t with
  | .done => none
  | .acquire lock next => if s.locks lock = .free then some (s.put t next lock (.heldBy t)) else none
  | .release lock next => if s.locks lock = .heldBy t then some (s.put t next lock .free) else none
  | .lose lock next => if s.locks lock = .heldBy t then some (s.put t next lock .lost) else none
  | .attempt lock taken refused =>
      if s.locks lock = .free then some (s.put t taken lock (.heldBy t))
      else some (s.put t refused lock (s.locks lock))

/-- The threads take steps in a given order. -/
def run (s : Threads τ κ) : List τ → Option (Threads τ κ)
  | [] => some s
  | t :: order => (s.step t).bind fun after => after.run order

end Steps

def held (s : Threads τ κ) (t : τ) : Set κ := fun lock => s.locks lock = .heldBy t

/-- The thread cannot go on before the mutex is given back. -/
def WaitsFor (s : Threads τ κ) (t : τ) (lock : κ) : Prop :=
  ∃ next, s.rest t = .acquire lock next ∧ s.locks lock ≠ .free

end Threads

namespace LockProgram

variable {κ ρ : Type}

/-! ### Programs in the order -/

section Order

variable [Preorder ρ] {rank : κ → ρ}

theorem Orderly.mono {program : LockProgram κ} {held : Set κ} {after more : Set κ → Prop}
    (orderly : program.Orderly rank held after) (implies : ∀ left, after left → more left) :
    program.Orderly rank held more := by
  induction program generalizing held with
  | done => exact implies held orderly
  | acquire lock next ih => exact ⟨orderly.1, ih orderly.2⟩
  | release lock next ih => exact ⟨orderly.1, ih orderly.2⟩
  | lose lock next ih => exact ⟨orderly.1, ih orderly.2⟩
  | attempt lock taken refused ihTaken ihRefused =>
      exact ⟨orderly.1, ihTaken orderly.2.1, ihRefused orderly.2.2⟩

theorem Orderly.seq {first later : LockProgram κ} {held : Set κ} {after : Set κ → Prop}
    (orderly : first.Orderly rank held fun left => later.Orderly rank left after) :
    (first.seq later).Orderly rank held after := by
  induction first generalizing held with
  | done => exact orderly
  | acquire lock next ih => exact ⟨orderly.1, ih orderly.2⟩
  | release lock next ih => exact ⟨orderly.1, ih orderly.2⟩
  | lose lock next ih => exact ⟨orderly.1, ih orderly.2⟩
  | attempt lock taken refused ihTaken ihRefused =>
      exact ⟨orderly.1, ihTaken orderly.2.1, ihRefused orderly.2.2⟩

/-- A program that may be run while mutexes up to `level` are held, and gives
back what it takes. -/
def Within (rank : κ → ρ) (level : ρ) (program : LockProgram κ) : Prop :=
  ∀ held : Set κ, (∀ lock ∈ held, rank lock ≤ level) → program.Orderly rank held fun left => left = held

theorem within_done (level : ρ) : (done : LockProgram κ).Within rank level :=
  fun _ _ => rfl

theorem Within.below {program : LockProgram κ} {level lower : ρ} (within : program.Within rank level)
    (le : lower ≤ level) : program.Within rank lower :=
  fun held bounded => within held fun lock member => (bounded lock member).trans le

theorem Within.seq {first later : LockProgram κ} {level : ρ} (one : first.Within rank level)
    (two : later.Within rank level) : (first.seq later).Within rank level := by
  intro held bounded
  refine Orderly.seq ((one held bounded).mono ?_)
  rintro left rfl
  exact two left bounded

theorem within_inTurn {programs : List (LockProgram κ)} {level : ρ}
    (each : ∀ program ∈ programs, program.Within rank level) : (inTurn programs).Within rank level := by
  induction programs with
  | nil => exact within_done level
  | cons program programs ih =>
      exact (each program List.mem_cons_self).seq
        (ih fun other member => each other (List.mem_cons_of_mem program member))

theorem not_held {held : Set κ} {level : ρ} {lock : κ} (bounded : ∀ other ∈ held, rank other ≤ level)
    (above : level < rank lock) : lock ∉ held :=
  fun member => absurd ((above.trans_le le_rfl).trans_le (bounded lock member)) (lt_irrefl level)

theorem within_bounded {held : Set κ} {level : ρ} {lock : κ} (bounded : ∀ other ∈ held, rank other ≤ level)
    (above : level < rank lock) : ∀ other ∈ insert lock held, rank other ≤ rank lock := by
  rintro other (rfl | member)
  · exact le_rfl
  · exact ((bounded other member).trans_lt above).le

/-- A body between taking a mutex and giving it back, or losing it. -/
theorem orderly_around {lock : κ} {body finish : LockProgram κ} {level : ρ} {held : Set κ}
    (bounded : ∀ other ∈ held, rank other ≤ level) (above : level < rank lock)
    (within : body.Within rank (rank lock))
    (gives : finish = .release lock .done ∨ finish = .lose lock .done) :
    (body.seq finish).Orderly rank (insert lock held) fun left => left = held := by
  refine Orderly.seq ((within (insert lock held) (within_bounded bounded above)).mono ?_)
  rintro left rfl
  have given : insert lock held \ {lock} = held := Set.insert_sdiff_self_of_notMem (not_held bounded above)
  rcases gives with rfl | rfl
  · exact ⟨Set.mem_insert lock held, given⟩
  · exact ⟨Set.mem_insert lock held, given⟩

theorem Within.holding {lock : κ} {body : LockProgram κ} {level : ρ} (above : level < rank lock)
    (within : body.Within rank (rank lock)) : (holding lock body).Within rank level :=
  fun _ bounded => ⟨fun other member => (bounded other member).trans_lt above,
    orderly_around bounded above within (.inl rfl)⟩

theorem Within.losing {lock : κ} {body : LockProgram κ} {level : ρ} (above : level < rank lock)
    (within : body.Within rank (rank lock)) :
    (acquire lock (body.seq (.lose lock .done))).Within rank level :=
  fun _ bounded => ⟨fun other member => (bounded other member).trans_lt above,
    orderly_around bounded above within (.inr rfl)⟩

theorem Within.trying (body : LockProgram κ) {lock : κ} {finish : LockProgram κ} {level : ρ} (above : level < rank lock)
    (within : body.Within rank (rank lock))
    (gives : finish = .release lock .done ∨ finish = .lose lock .done) :
    (attempt lock (body.seq finish) .done).Within rank level :=
  fun _ bounded => ⟨not_held bounded above, orderly_around bounded above within gives, rfl⟩

theorem orderly_acquireAll {locks : List κ} {later : LockProgram κ} {held : Set κ} {after : Set κ → Prop}
    (ascending : locks.Pairwise fun lock other => rank lock < rank other)
    (above : ∀ lock ∈ locks, ∀ other ∈ held, rank other < rank lock)
    (rest : later.Orderly rank (held ∪ {lock | lock ∈ locks}) after) :
    (acquireAll locks later).Orderly rank held after := by
  induction locks generalizing held with
  | nil => simpa [acquireAll] using rest
  | cons lock locks ih =>
      rw [List.pairwise_cons] at ascending
      refine ⟨above lock List.mem_cons_self, ih ascending.2 ?_ ?_⟩
      · rintro next member other (rfl | before)
        · exact ascending.1 next member
        · exact above next (List.mem_cons_of_mem lock member) other before
      · have same : insert lock held ∪ {other | other ∈ locks} = held ∪ {other | other ∈ lock :: locks} := by
          ext other
          simp only [Set.mem_union, Set.mem_insert_iff, Set.mem_ofPred_eq, List.mem_cons]
          tauto
        rw [same]
        exact rest

theorem orderly_releaseAll {locks : List κ} {later : LockProgram κ} {held : Set κ} {after : Set κ → Prop}
    (distinct : locks.Nodup) (taken : ∀ lock ∈ locks, lock ∈ held)
    (rest : later.Orderly rank (held \ {lock | lock ∈ locks}) after) :
    (releaseAll locks later).Orderly rank held after := by
  induction locks generalizing held with
  | nil => simpa [releaseAll] using rest
  | cons lock locks ih =>
      rw [List.nodup_cons] at distinct
      refine ⟨taken lock List.mem_cons_self, ih distinct.2 ?_ ?_⟩
      · intro next member
        refine ⟨taken next (List.mem_cons_of_mem lock member), ?_⟩
        rintro rfl
        exact distinct.1 member
      · have same : (held \ {lock}) \ {other | other ∈ locks} = held \ {other | other ∈ lock :: locks} := by
          ext other
          simp only [Set.mem_sdiff, Set.mem_singleton_iff, Set.mem_ofPred_eq, List.mem_cons]
          tauto
        rw [same]
        exact rest

/-- Before it gives them back a thread holds them. -/
theorem Orderly.holds {locks : List κ} {later : LockProgram κ} {held : Set κ} {after : Set κ → Prop}
    (orderly : (releaseAll locks later).Orderly rank held after) : ∀ lock ∈ locks, lock ∈ held := by
  induction locks generalizing held with
  | nil => exact fun lock member => by cases member
  | cons first locks ih =>
      intro lock member
      rcases List.mem_cons.mp member with rfl | behind
      · exact orderly.1
      · exact (ih orderly.2 lock behind).1

/-- A section under several mutexes, taken in the order of their ranks. -/
theorem within_several {locks : List κ} {body : LockProgram κ} {level top : ρ}
    (ascending : locks.Pairwise fun lock other => rank lock < rank other)
    (above : ∀ lock ∈ locks, level < rank lock) (below : ∀ lock ∈ locks, rank lock ≤ top) (le : level ≤ top)
    (within : body.Within rank top) :
    (acquireAll locks (body.seq (releaseAll locks .done))).Within rank level := by
  intro held bounded
  refine orderly_acquireAll ascending
    (fun lock member other before => (bounded other before).trans_lt (above lock member)) (Orderly.seq ?_)
  refine (within _ ?_).mono ?_
  · rintro lock (before | member)
    · exact (bounded lock before).trans le
    · exact below lock member
  · rintro left rfl
    have distinct : locks.Nodup := ascending.imp fun {one two} less same => by
      rw [same] at less
      exact lt_irrefl (rank two) less
    refine orderly_releaseAll distinct (fun lock member => Or.inr member) ?_
    change (held ∪ {lock | lock ∈ locks}) \ {lock | lock ∈ locks} = held
    rw [Set.union_sdiff_right]
    exact sdiff_eq_left.mpr (Set.disjoint_left.mpr fun lock before member =>
      not_held bounded (above lock member) before)

end Order

/-! ### What is named -/

@[simp] theorem names_seq {lock : κ} (first later : LockProgram κ) :
    (first.seq later).Names lock ↔ first.Names lock ∨ later.Names lock := by
  induction first with
  | done => simp [seq, Names]
  | acquire other next ih => simp [seq, Names, ih, or_assoc]
  | release other next ih => simp [seq, Names, ih, or_assoc]
  | lose other next ih => simp [seq, Names, ih, or_assoc]
  | attempt other taken refused ihTaken ihRefused =>
      simp only [seq, Names, ihTaken, ihRefused]
      tauto

theorem names_inTurn {lock : κ} (programs : List (LockProgram κ)) :
    (inTurn programs).Names lock ↔ ∃ program ∈ programs, program.Names lock := by
  induction programs with
  | nil => simp [inTurn, Names]
  | cons program programs ih =>
      simp only [List.mem_cons, exists_eq_or_imp, ← ih]
      exact names_seq program (inTurn programs)

@[simp] theorem names_holding {lock other : κ} (body : LockProgram κ) :
    (holding other body).Names lock ↔ other = lock ∨ body.Names lock := by
  simp only [holding, Names, names_seq]
  tauto

theorem Onward.names {whole left : LockProgram κ} {lock : κ} (onward : Onward whole left)
    (names : left.Names lock) : whole.Names lock := by
  induction onward with
  | here program => exact names
  | acquire other rest ih => exact .inr (ih names)
  | release other rest ih => exact .inr (ih names)
  | lose other rest ih => exact .inr (ih names)
  | taken other refused rest ih => exact .inr (.inl (ih names))
  | refused other taken rest ih => exact .inr (.inr (ih names))

/-- A mutex held behind a program that does not name it is held in front of it. -/
theorem Orderly.held_before [Preorder ρ] {rank : κ → ρ} {program later : LockProgram κ} {held : Set κ}
    {after : Set κ → Prop} {lock : κ} (orderly : (program.seq later).Orderly rank held after)
    (unnamed : ¬ program.Names lock) (behind : ∀ left, later.Orderly rank left after → lock ∈ left) :
    lock ∈ held := by
  induction program generalizing held with
  | done => exact behind held orderly
  | acquire other next ih =>
      rw [Names, not_or] at unnamed
      rcases ih orderly.2 unnamed.2 with same | before
      · exact absurd same.symm unnamed.1
      · exact before
  | release other next ih =>
      rw [Names, not_or] at unnamed
      exact (ih orderly.2 unnamed.2).1
  | lose other next ih =>
      rw [Names, not_or] at unnamed
      exact (ih orderly.2 unnamed.2).1
  | attempt other taken refused _ ihRefused =>
      rw [Names, not_or, not_or] at unnamed
      exact ihRefused orderly.2.2 unnamed.2.2

/-! ### What is lost -/

@[simp] theorem loses_seq {lock : κ} (first later : LockProgram κ) :
    (first.seq later).Loses lock ↔ first.Loses lock ∨ later.Loses lock := by
  induction first with
  | done => simp [seq, Loses]
  | acquire other next ih => simpa [seq, Loses] using ih
  | release other next ih => simpa [seq, Loses] using ih
  | lose other next ih => simp [seq, Loses, ih, or_assoc]
  | attempt other taken refused ihTaken ihRefused =>
      simp only [seq, Loses, ihTaken, ihRefused]
      tauto

theorem loses_inTurn {lock : κ} (programs : List (LockProgram κ)) :
    (inTurn programs).Loses lock ↔ ∃ program ∈ programs, program.Loses lock := by
  induction programs with
  | nil => simp [inTurn, Loses]
  | cons program programs ih =>
      simp only [List.mem_cons, exists_eq_or_imp, ← ih]
      exact loses_seq program (inTurn programs)

@[simp] theorem loses_each {α : Type} {lock : κ} (items : List α) (each : α → LockProgram κ) :
    (inTurn (items.map each)).Loses lock ↔ ∃ item ∈ items, (each item).Loses lock := by
  rw [loses_inTurn]
  simp

@[simp] theorem loses_holding {lock other : κ} (body : LockProgram κ) :
    (holding other body).Loses lock ↔ body.Loses lock := by
  simp [holding, Loses, loses_seq]

@[simp] theorem loses_acquireAll {lock : κ} (locks : List κ) (later : LockProgram κ) :
    (acquireAll locks later).Loses lock ↔ later.Loses lock := by
  induction locks with
  | nil => rfl
  | cons other locks ih => exact ih

@[simp] theorem loses_releaseAll {lock : κ} (locks : List κ) (later : LockProgram κ) :
    (releaseAll locks later).Loses lock ↔ later.Loses lock := by
  induction locks with
  | nil => rfl
  | cons other locks ih => exact ih

end LockProgram

namespace Threads

variable {τ κ ρ : Type} [DecidableEq τ] [DecidableEq κ]

/-! ### Runs -/

/-- What a step changes: the program of its thread goes on, and one mutex. -/
theorem step_cases {s after : Threads τ κ} {t : τ} (stepped : s.step t = some after) :
    (∃ lock next, s.rest t = .acquire lock next ∧ s.locks lock = .free ∧
      after = s.put t next lock (.heldBy t)) ∨
    (∃ lock next, s.rest t = .release lock next ∧ s.locks lock = .heldBy t ∧
      after = s.put t next lock .free) ∨
    (∃ lock next, s.rest t = .lose lock next ∧ s.locks lock = .heldBy t ∧
      after = s.put t next lock .lost) ∨
    (∃ lock taken refused, s.rest t = .attempt lock taken refused ∧ s.locks lock = .free ∧
      after = s.put t taken lock (.heldBy t)) ∨
    ∃ lock taken refused, s.rest t = .attempt lock taken refused ∧ s.locks lock ≠ .free ∧
      after = s.put t refused lock (s.locks lock) := by
  rw [step] at stepped
  cases isProgram : s.rest t with
  | done =>
      rw [isProgram] at stepped
      cases stepped
  | acquire lock next =>
      rw [isProgram] at stepped
      obtain ⟨free, same⟩ := Option.ite_none_right_eq_some.mp stepped
      cases same
      exact .inl ⟨lock, next, rfl, free, rfl⟩
  | release lock next =>
      rw [isProgram] at stepped
      obtain ⟨mine, same⟩ := Option.ite_none_right_eq_some.mp stepped
      cases same
      exact .inr (.inl ⟨lock, next, rfl, mine, rfl⟩)
  | lose lock next =>
      rw [isProgram] at stepped
      obtain ⟨mine, same⟩ := Option.ite_none_right_eq_some.mp stepped
      cases same
      exact .inr (.inr (.inl ⟨lock, next, rfl, mine, rfl⟩))
  | attempt lock taken refused =>
      rw [isProgram] at stepped
      simp only at stepped
      by_cases free : s.locks lock = .free
      · rw [if_pos free] at stepped
        cases stepped
        exact .inr (.inr (.inr (.inl ⟨lock, taken, refused, rfl, free, rfl⟩)))
      · rw [if_neg free] at stepped
        cases stepped
        exact .inr (.inr (.inr (.inr ⟨lock, taken, refused, rfl, free, rfl⟩)))

section Held

variable (s : Threads τ κ) (t u : τ) (next : LockProgram κ) (lock : κ)

theorem held_taken : (s.put t next lock (.heldBy t)).held t = insert lock (s.held t) := by
  ext other
  change Function.update s.locks lock (.heldBy t) other = .heldBy t ↔ other = lock ∨ s.locks other = .heldBy t
  by_cases same : other = lock
  · simp [same]
  · simp [same]

theorem held_given {state : LockState τ} (given : state ≠ .heldBy t) :
    (s.put t next lock state).held t = s.held t \ {lock} := by
  ext other
  change Function.update s.locks lock state other = .heldBy t ↔ s.locks other = .heldBy t ∧ other ≠ lock
  by_cases same : other = lock
  · simp [same, given]
  · simp [same]

theorem held_other {state : LockState τ} (before : s.locks lock ≠ .heldBy u) (later : state ≠ .heldBy u) :
    (s.put t next lock state).held u = s.held u := by
  ext other
  change Function.update s.locks lock state other = .heldBy u ↔ s.locks other = .heldBy u
  by_cases same : other = lock
  · simp [same, before, later]
  · simp [Function.update_of_ne same]

end Held

/-- Every thread goes on in the order from what it holds, and holds nothing in
the end; a mutex that is lost is one that some thread loses. -/
structure Sound [LT ρ] (rank : κ → ρ) (programs : τ → LockProgram κ) (s : Threads τ κ) : Prop where
  orderly : ∀ t, (s.rest t).Orderly rank (s.held t) fun left => left = ∅
  loses : ∀ t lock, (s.rest t).Loses lock → (programs t).Loses lock
  lost : ∀ lock, s.locks lock = .lost → ∃ t, (programs t).Loses lock

section Runs

variable {rank : κ → ρ} {programs : τ → LockProgram κ}

omit [DecidableEq τ] [DecidableEq κ] in
theorem start_sound [Preorder ρ] {level : ρ} (within : ∀ t, (programs t).Within rank level) :
    Sound rank programs (start programs) := by
  constructor
  · intro t
    have empty : (start programs).held t = ∅ := by
      ext lock
      exact iff_of_false (fun held => by cases held) (Set.notMem_empty lock)
    rw [empty]
    exact within t ∅ fun lock member => absurd member (Set.notMem_empty lock)
  · exact fun t lock loses => loses
  · exact fun lock lost => by cases lost

/-- The program of the thread goes on with the mutex in its new state. -/
theorem Sound.put [Preorder ρ] {s : Threads τ κ} {t : τ} {next : LockProgram κ} {lock : κ}
    {state : LockState τ} (sound : Sound rank programs s)
    (orderly : next.Orderly rank ((s.put t next lock state).held t) fun left => left = ∅)
    (loses : ∀ other, next.Loses other → (s.rest t).Loses other)
    (lost : state = .lost → (s.rest t).Loses lock ∨ s.locks lock = .lost)
    (others : ∀ u, u ≠ t → (s.put t next lock state).held u = s.held u) :
    Sound rank programs (s.put t next lock state) := by
  have rests : ∀ u, (s.put t next lock state).rest u = if u = t then next else s.rest u := by
    intro u
    simp [Threads.put, Function.update_apply]
  constructor
  · intro u
    rw [rests]
    by_cases same : u = t
    · subst same
      rw [if_pos rfl]
      exact orderly
    · rw [if_neg same, others u same]
      exact sound.orderly u
  · intro u other later
    rw [rests] at later
    by_cases same : u = t
    · subst same
      rw [if_pos rfl] at later
      exact sound.loses u other (loses other later)
    · rw [if_neg same] at later
      exact sound.loses u other later
  · intro other isLost
    change Function.update s.locks lock state other = .lost at isLost
    by_cases same : other = lock
    · subst same
      rw [Function.update_self] at isLost
      rcases lost isLost with byThis | before
      · exact ⟨t, sound.loses t other byThis⟩
      · exact sound.lost other before
    · rw [Function.update_of_ne same] at isLost
      exact sound.lost other isLost

theorem Sound.step [Preorder ρ] {s after : Threads τ κ} {t : τ} (sound : Sound rank programs s)
    (stepped : s.step t = some after) : Sound rank programs after := by
  have mine := sound.orderly t
  have apart : ∀ {lock : κ} {state : LockState τ} {next : LockProgram κ}, (s.locks lock = .heldBy t ∨
      s.locks lock = .free) → (∀ u, u ≠ t → state ≠ .heldBy u) →
      ∀ u, u ≠ t → (s.put t next lock state).held u = s.held u := by
    intro lock state next before later u different
    refine held_other s t u next lock ?_ (later u different)
    rcases before with held | free
    · rw [held]
      exact fun same => different (LockState.heldBy.inj same).symm
    · rw [free]
      exact fun same => by cases same
  have foreign : ∀ u, u ≠ t → LockState.heldBy t ≠ .heldBy u :=
    fun u different same => different (LockState.heldBy.inj same).symm
  rcases step_cases stepped with ⟨lock, next, isProgram, free, rfl⟩ | ⟨lock, next, isProgram, held, rfl⟩ |
    ⟨lock, next, isProgram, held, rfl⟩ | ⟨lock, taken, refused, isProgram, free, rfl⟩ |
    ⟨lock, taken, refused, isProgram, busy, rfl⟩ <;> rw [isProgram] at mine
  · refine sound.put ?_ (fun other later => ?_) (fun lost => by cases lost) (apart (.inr free) foreign)
    · rw [held_taken]
      exact mine.2
    · rw [isProgram]
      exact later
  · refine sound.put ?_ (fun other later => ?_) (fun lost => by cases lost)
      (apart (.inl held) fun u _ same => by cases same)
    · rw [held_given _ _ _ _ fun same => by cases same]
      exact mine.2
    · rw [isProgram]
      exact later
  · refine sound.put ?_ (fun other later => ?_) (fun _ => .inl ?_)
      (apart (.inl held) fun u _ same => by cases same)
    · rw [held_given _ _ _ _ fun same => by cases same]
      exact mine.2
    · rw [isProgram]
      exact .inr later
    · rw [isProgram]
      exact .inl rfl
  · refine sound.put ?_ (fun other later => ?_) (fun lost => by cases lost) (apart (.inr free) foreign)
    · rw [held_taken]
      exact mine.2.1
    · rw [isProgram]
      exact .inl later
  · have same : (s.put t refused lock (s.locks lock)).locks = s.locks := Function.update_eq_self lock s.locks
    have kept : ∀ u, (s.put t refused lock (s.locks lock)).held u = s.held u := by
      intro u
      ext other
      change (s.put t refused lock (s.locks lock)).locks other = _ ↔ s.locks other = _
      rw [same]
    refine sound.put ?_ (fun other later => ?_) (fun lost => .inr lost) fun u _ => kept u
    · rw [kept]
      exact mine.2.2
    · rw [isProgram]
      exact .inr later

theorem Sound.run [Preorder ρ] {s after : Threads τ κ} {order : List τ} (sound : Sound rank programs s)
    (ran : s.run order = some after) : Sound rank programs after := by
  induction order generalizing s with
  | nil =>
      cases ran
      exact sound
  | cons t order ih =>
      rw [Threads.run] at ran
      obtain ⟨middle, stepped, later⟩ := Option.bind_eq_some_iff.mp ran
      exact ih (sound.step stepped) later

/-- A thread that cannot go on waits for a mutex, or has ended. -/
theorem Sound.stopped [Preorder ρ] {s : Threads τ κ} {t : τ} (sound : Sound rank programs s)
    (stopped : s.step t = none) : s.rest t = .done ∨ ∃ lock, s.WaitsFor t lock := by
  have mine := sound.orderly t
  rw [Threads.step] at stopped
  cases isProgram : s.rest t with
  | done => exact .inl rfl
  | acquire lock next =>
      rw [isProgram] at stopped
      simp only [ite_eq_right_iff, reduceCtorEq, imp_false] at stopped
      exact .inr ⟨lock, next, isProgram, stopped⟩
  | release lock next =>
      rw [isProgram] at stopped mine
      exact absurd stopped (by simp [show s.locks lock = .heldBy t from mine.1])
  | lose lock next =>
      rw [isProgram] at stopped mine
      exact absurd stopped (by simp [show s.locks lock = .heldBy t from mine.1])
  | attempt lock taken refused =>
      rw [isProgram] at stopped
      simp only at stopped
      split at stopped <;> cases stopped

/-- The holder of a mutex somebody waits for waits for one that ranks higher. -/
theorem Sound.higher [Preorder ρ] {s : Threads τ κ} (sound : Sound rank programs s)
    (stopped : ∀ t, s.step t = none) {t : τ} {lock : κ} (waits : s.WaitsFor t lock)
    (kept : s.locks lock ≠ .lost) : ∃ u other, s.WaitsFor u other ∧ rank lock < rank other := by
  obtain ⟨next, isProgram, busy⟩ := waits
  cases state : s.locks lock with
  | free => exact absurd state busy
  | lost => exact absurd state kept
  | heldBy u =>
      have owns : lock ∈ s.held u := state
      have theirs := sound.orderly u
      rcases sound.stopped (stopped u) with ended | ⟨other, later, goes, taken⟩
      · rw [ended] at theirs
        change s.held u = ∅ at theirs
        rw [theirs] at owns
        exact absurd owns (Set.notMem_empty lock)
      · rw [goes] at theirs
        exact ⟨u, other, ⟨later, goes, taken⟩, theirs.1 lock owns⟩

/-- Threads that all stand still have ended, unless one waits for a lost mutex. -/
theorem Sound.stands_still [LinearOrder ρ] [Finite τ] {s : Threads τ κ} (sound : Sound rank programs s)
    (stopped : ∀ t, s.step t = none) :
    (∀ t, s.rest t = .done) ∨ ∃ t lock, s.WaitsFor t lock ∧ s.locks lock = .lost := by
  by_cases ended : ∀ t, s.rest t = .done
  · exact .inl ended
  · by_contra stuck
    rw [not_or] at stuck
    have kept : ∀ t lock, s.WaitsFor t lock → s.locks lock ≠ .lost :=
      fun t lock waits lost => stuck.2 ⟨t, lock, waits, lost⟩
    -- of the mutexes waited for, one ranks highest
    let waited : Set κ := {lock | ∃ t, s.WaitsFor t lock}
    have finite : waited.Finite := by
      have images : waited ⊆ Set.preimage some (Set.range fun t => (s.rest t).first) := by
        rintro lock ⟨t, next, isProgram, -⟩
        exact ⟨t, congrArg LockProgram.first isProgram⟩
      exact ((Set.finite_range _).preimage (Option.some_injective κ).injOn).subset images
    obtain ⟨t, going⟩ := not_forall.mp ended
    obtain ⟨lock, waits⟩ := (sound.stopped (stopped t)).resolve_left going
    obtain ⟨top, ⟨u, waitsTop⟩, highest⟩ := finite.exists_maximalFor rank waited ⟨lock, t, waits⟩
    obtain ⟨v, other, waitsOther, less⟩ := sound.higher stopped waitsTop (kept u top waitsTop)
    exact absurd (highest ⟨v, waitsOther⟩ less.le) less.not_ge

omit [DecidableEq τ] [DecidableEq κ] in
theorem Sound.all_given [Preorder ρ] {s : Threads τ κ} (sound : Sound rank programs s)
    (ended : ∀ t, s.rest t = .done) (lock : κ) : s.locks lock = .free ∨ s.locks lock = .lost := by
  cases state : s.locks lock with
  | free => exact .inl rfl
  | lost => exact .inr rfl
  | heldBy t =>
      have theirs := sound.orderly t
      rw [ended t] at theirs
      change s.held t = ∅ at theirs
      have owns : lock ∈ s.held t := state
      rw [theirs] at owns
      exact absurd owns (Set.notMem_empty lock)

end Runs

/-! ### The length of a run -/

theorem step_shrinks {s after : Threads τ κ} {t : τ} (stepped : s.step t = some after) :
    (after.rest t).size < (s.rest t).size ∧ ∀ u, u ≠ t → after.rest u = s.rest u := by
  have others : ∀ (next : LockProgram κ) (lock : κ) (state : LockState τ) (u : τ), u ≠ t →
      (s.put t next lock state).rest u = s.rest u :=
    fun next lock state u different => by simp [put, different]
  have own : ∀ (next : LockProgram κ) (lock : κ) (state : LockState τ),
      (s.put t next lock state).rest t = next := fun next lock state => by simp [put]
  rcases step_cases stepped with ⟨lock, next, isProgram, -, rfl⟩ | ⟨lock, next, isProgram, -, rfl⟩ |
    ⟨lock, next, isProgram, -, rfl⟩ | ⟨lock, taken, refused, isProgram, -, rfl⟩ |
    ⟨lock, taken, refused, isProgram, -, rfl⟩ <;>
    exact ⟨by rw [own, isProgram]; simp only [LockProgram.size]; omega, others _ _ _⟩

/-- The steps that are left at most. -/
def work [Fintype τ] (s : Threads τ κ) : Nat := ∑ t, (s.rest t).size

theorem run_length [Fintype τ] {s after : Threads τ κ} {order : List τ} (ran : s.run order = some after) :
    order.length + after.work ≤ s.work := by
  induction order generalizing s with
  | nil =>
      cases ran
      simp
  | cons t order ih =>
      rw [Threads.run] at ran
      obtain ⟨middle, stepped, later⟩ := Option.bind_eq_some_iff.mp ran
      have less : middle.work < s.work := by
        obtain ⟨own, others⟩ := step_shrinks stepped
        refine Finset.sum_lt_sum (fun u _ => ?_) ⟨t, Finset.mem_univ t, own⟩
        by_cases same : u = t
        · subst same
          exact own.le
        · rw [others u same]
      have rest := ih later
      rw [List.length_cons]
      omega

end Threads

end Ijson
