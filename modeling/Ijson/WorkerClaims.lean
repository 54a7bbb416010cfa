/-
One worker connection under several loops.

A worker that asks for several names enters their queues in sections of their
own, one mutex after the other, while other loops claim it under its own mutex
(`worker_wait_job` to `busy`) and hand it their client's task later.  The
sections of the own loop end with a plain write of the status.
-/

import Ijson.WorkerView

namespace Ijson

/-- Where the own loop is in a request of the worker: nowhere, in front of
`add_worker`, or in it. -/
inductive Asking where
  | no
  | soon
  | now
  deriving DecidableEq

/-- `claims` holds the client of each loop that has claimed the worker and not
handed its task over yet.  `held` and `taken` are not in the source: the clients
whose tasks were handed over for the current request and are not answered, and
whether the worker was claimed since that request began (a claim that is taken
back does not count). -/
structure Shared where
  worker : Worker
  claims : Nat → Option ConnId
  own : Nat
  asking : Asking
  held : List ConnId
  taken : Bool

/-- `claim`, `hand` and `undo` are the steps of the loop that dispatches a
client's request to the worker, one under the mutex of the worker, the others
behind it.  `begin`, `result`, the modes, `conclude`, `start` and `stop` belong
to the worker's request; `register`, `giveAsync` and `give` are what
`_add_worker` does for one name. -/
inductive Turn where
  | claim (loop : Nat) (c : ConnId)
  | hand (loop : Nat) (noResponse : Bool)
  | undo (loop : Nat)
  | begin
  | result
  | workerMode (on : Bool)
  | noIdMode
  | failMode
  | conclude
  | start
  | register
  | giveAsync
  | give (d : ConnId)
  | stop

namespace Shared

def free (s : Shared) (loop : Nat) : Shared :=
  { s with claims := Function.update s.claims loop none }

end Shared

namespace Turn

/-- The sections of `_add_worker`. -/
def isSection : Turn → Bool
  | .register => true
  | .giveAsync => true
  | .give _ => true
  | _ => false

/-- `none` where the code does not come to the step. -/
def step : Turn → Shared → Option Shared
  | .claim loop c, s =>
      if s.claims loop = none ∧ s.worker.status = .workerWaitJob ∧ (loop = s.own → s.asking = .no) then
        some { s with
          worker := s.worker.claim
          claims := Function.update s.claims loop (some c)
          taken := true }
      else none
  | .hand loop noResponse, s =>
      (s.claims loop).map fun c =>
        if noResponse then { s.free loop with worker := s.worker.takeAsync }
        else if s.worker.noid then
          { s.free loop with
            worker := s.worker.handNoid c
            held := s.held ++ [c] }
        else
          { s.free loop with
            worker := s.worker.takeId c
            held := s.held ++ [c] }
  | .undo loop, s =>
      if s.claims loop = none ∨ s.worker.noid then none
      else some { s.free loop with worker := s.worker.wait, taken := false }
  | .begin, s =>
      if s.claims s.own = none ∧ s.asking = .no ∧ (s.worker.status = .net ∧ s.worker.workerMode = false ∨
          s.worker.status = .workerModeAsync) then
        some { s with worker := s.worker.begin, asking := .soon, held := [], taken := false }
      else none
  | .result, s =>
      if s.claims s.own = none ∧ s.asking = .no ∧ s.worker.noid ∧
          s.worker.status = .workerWaitResult ∧ s.worker.client ≠ none then
        some { s with worker := s.worker.post, asking := .soon, held := [], taken := false }
      else none
  | .workerMode on, s =>
      if s.asking = .soon then some { s with worker := { s.worker with workerMode := on } } else none
  | .noIdMode, s =>
      if s.asking = .soon then some { s with worker := s.worker.noIdMode } else none
  | .failMode, s =>
      if s.asking = .soon then some { s with worker := s.worker.failMode } else none
  | .conclude, s =>
      if s.asking = .soon then
        some { s with worker := { s.worker with status := .net }, asking := .no }
      else none
  | .start, s => if s.asking = .soon then some { s with asking := .now } else none
  | .register, s =>
      if s.claims s.own = none ∧ s.asking = .now then some { s with worker := s.worker.wait } else none
  | .giveAsync, s =>
      if s.claims s.own = none ∧ s.asking = .now then some { s with worker := s.worker.takeAsync }
      else none
  | .give d, s =>
      if s.claims s.own = none ∧ s.asking = .now then
        some { s with
          worker := if s.worker.noid then s.worker.giveNoid d else s.worker.takeId d
          asking := .no
          held := s.held ++ [d] }
      else none
  | .stop, s => some { s with asking := .no }

/-- The worker has not been claimed between two sections of one request. -/
def Undisturbed (turn : Turn) (s : Shared) : Prop := turn.isSection = true → s.taken = false

instance (turn : Turn) (s : Shared) : Decidable (turn.Undisturbed s) :=
  inferInstanceAs (Decidable (_ → _))

end Turn

/-! ### The invariant -/

namespace Shared

structure Sound (s : Shared) : Prop where
  alone : ∀ loop other c d, s.claims loop = some c → s.claims other = some d → loop = other
  claimed : ∀ loop c, s.claims loop = some c →
    s.worker.status = .busy ∧ s.held = [] ∧ s.taken = true
  waits : s.worker.status = .workerWaitJob → s.held = [] ∧ s.taken = false
  soon : s.asking = .soon → s.worker.status ≠ .workerWaitJob ∧ s.worker.status ≠ .busy ∧
    s.held = [] ∧ s.taken = false
  now : s.asking = .now → s.taken = false → s.held = []
  one : s.held.length ≤ 1
  client : ∀ c ∈ s.held, s.worker.noid = true →
    s.worker.client = some c ∧ s.worker.status = .workerWaitResult
  modes : s.worker.status ≠ .net ∨ s.asking ≠ .no →
    s.worker.noid = true → s.worker.failOnDisconnect = true

/-- A connection that has not asked for a task yet. -/
structure New (s : Shared) : Prop where
  claims : ∀ loop, s.claims loop = none
  asking : s.asking = .no
  held : s.held = []
  taken : s.taken = false
  status : s.worker.status = .net

theorem New.sound {s : Shared} (new : s.New) : s.Sound where
  alone := fun loop other c d claim => by
    rw [new.claims] at claim
    cases claim
  claimed := fun loop c claim => by
    rw [new.claims] at claim
    cases claim
  waits := fun waits => by
    rw [new.status] at waits
    cases waits
  soon := fun soon => by
    rw [new.asking] at soon
    cases soon
  now := fun _ _ => new.held
  one := by
    rw [new.held]
    exact Nat.zero_le 1
  client := fun c member => by
    rw [new.held] at member
    cases member
  modes := fun busy => by
    rcases busy with notNet | asks
    · exact absurd new.status notNet
    · exact absurd new.asking asks

theorem Sound.unclaimed {s : Shared} (sound : s.Sound) (notBusy : s.worker.status ≠ .busy) (loop : Nat) :
    s.claims loop = none := by
  cases claim : s.claims loop with
  | none => rfl
  | some c => exact absurd (sound.claimed loop c claim).1 notBusy

theorem free_claims {s : Shared} {loop other : Nat} {d : ConnId}
    (claim : (s.free loop).claims other = some d) : other ≠ loop ∧ s.claims other = some d := by
  have updated : Function.update s.claims loop none other = some d := claim
  rw [Function.update_apply] at updated
  by_cases same : other = loop
  · rw [if_pos same] at updated
    cases updated
  · rw [if_neg same] at updated
    exact ⟨same, updated⟩

/-- After the only claim is given up there is none. -/
theorem Sound.freed {s : Shared} (sound : s.Sound) {loop : Nat} {c : ConnId}
    (claim : s.claims loop = some c) (other : Nat) : (s.free loop).claims other = none := by
  cases kept : (s.free loop).claims other with
  | none => rfl
  | some d =>
      obtain ⟨differs, before⟩ := free_claims kept
      exact absurd (sound.alone other loop d c before claim) differs

/-- The claims are no matter where there are none. -/
theorem sound_of_unclaimed {s : Shared} (unclaimed : ∀ loop, s.claims loop = none)
    (waits : s.worker.status = .workerWaitJob → s.held = [] ∧ s.taken = false)
    (soon : s.asking = .soon → s.worker.status ≠ .workerWaitJob ∧ s.worker.status ≠ .busy ∧
      s.held = [] ∧ s.taken = false)
    (now : s.asking = .now → s.taken = false → s.held = []) (one : s.held.length ≤ 1)
    (client : ∀ c ∈ s.held, s.worker.noid = true →
      s.worker.client = some c ∧ s.worker.status = .workerWaitResult)
    (modes : s.worker.status ≠ .net ∨ s.asking ≠ .no →
      s.worker.noid = true → s.worker.failOnDisconnect = true) : s.Sound where
  alone := fun loop other c d claim => by
    rw [unclaimed] at claim
    cases claim
  claimed := fun loop c claim => by
    rw [unclaimed] at claim
    cases claim
  waits := waits
  soon := soon
  now := now
  one := one
  client := client
  modes := modes

variable {s t : Shared}

theorem Sound.claim (sound : s.Sound) {loop : Nat} {c : ConnId}
    (step : (Turn.claim loop c).step s = some t) : t.Sound := by
  rw [Turn.step] at step
  split at step
  · rename_i meets
    obtain ⟨idle, waiting, ownIdle⟩ := meets
    cases step
    obtain ⟨held, untaken⟩ := sound.waits waiting
    have unclaimed := sound.unclaimed (by rw [waiting]; decide)
    have only : ∀ other d, Function.update s.claims loop (some c) other = some d → other = loop := by
      intro other d claim
      rw [Function.update_apply] at claim
      by_cases same : other = loop
      · exact same
      · rw [if_neg same, unclaimed] at claim
        cases claim
    exact
      { alone := fun first second d e left right => (only first d left).trans (only second e right).symm
        claimed := fun other d _ => ⟨rfl, held, rfl⟩
        waits := fun waits => by cases waits
        soon := fun soon => absurd waiting (sound.soon soon).1
        now := fun _ _ => held
        one := sound.one
        client := fun d member => by
          rw [held] at member
          cases member
        modes := fun _ => sound.modes (Or.inl (by rw [waiting]; decide)) }
  · cases step

theorem Sound.hand (sound : s.Sound) {loop : Nat} {noResponse : Bool}
    (step : (Turn.hand loop noResponse).step s = some t) : t.Sound := by
  rw [Turn.step] at step
  obtain ⟨c, claim, made⟩ := Option.map_eq_some_iff.mp step
  obtain ⟨busy, held, taken⟩ := sound.claimed loop c claim
  have unclaimed := sound.freed claim
  have modes := sound.modes (Or.inl (by rw [busy]; decide))
  have notSoon : s.asking ≠ .soon := fun soon => (sound.soon soon).2.1 busy
  by_cases async : noResponse = true
  · rw [if_pos async] at made
    rw [← made]
    refine sound_of_unclaimed unclaimed (fun waits => ?_) (fun soon => absurd soon notSoon)
      (fun _ _ => held) sound.one (fun d member => ?_) fun _ => modes
    · simp only [Worker.takeAsync] at waits
      split at waits <;> cases waits
    · rw [free, held] at member
      cases member
  · rw [if_neg async] at made
    by_cases noid : s.worker.noid = true
    · rw [if_pos noid] at made
      rw [← made]
      refine sound_of_unclaimed unclaimed (fun waits => by cases waits) (fun soon => absurd soon notSoon)
        (fun _ untaken => ?_) (by rw [held]; exact Nat.le_refl 1) (fun d member _ => ?_) fun _ => modes
      · rw [free, taken] at untaken
        cases untaken
      · rw [held] at member
        rw [List.mem_singleton.mp member]
        exact ⟨rfl, rfl⟩
    · rw [if_neg noid] at made
      rw [← made]
      refine sound_of_unclaimed unclaimed (fun waits => by cases waits) (fun soon => absurd soon notSoon)
        (fun _ untaken => ?_) (by rw [held]; exact Nat.le_refl 1)
        (fun d member isNoid => absurd isNoid noid) fun _ => modes
      rw [free, taken] at untaken
      cases untaken

theorem Sound.undo (sound : s.Sound) {loop : Nat} (step : (Turn.undo loop).step s = some t) :
    t.Sound := by
  rw [Turn.step] at step
  split at step
  · cases step
  · rename_i meets
    cases step
    cases claim : s.claims loop with
    | none => exact absurd (Or.inl claim) meets
    | some c =>
        obtain ⟨busy, held, taken⟩ := sound.claimed loop c claim
        refine sound_of_unclaimed (sound.freed claim) (fun _ => ⟨held, rfl⟩)
          (fun soon => absurd busy (sound.soon soon).2.1) (fun _ _ => held) sound.one
          (fun d member => ?_) fun _ => sound.modes (Or.inl (by rw [busy]; decide))
        have inHeld : d ∈ s.held := member
        rw [held] at inHeld
        cases inHeld

theorem Sound.begin (sound : s.Sound) (step : Turn.begin.step s = some t) : t.Sound := by
  rw [Turn.step] at step
  split at step
  · rename_i meets
    obtain ⟨_, idle, ready⟩ := meets
    cases step
    have status : s.worker.begin.status = s.worker.status := by
      unfold Worker.begin
      split <;> rfl
    have notBusy : s.worker.status ≠ .busy := by
      rcases ready with ⟨net, _⟩ | async
      · rw [net]
        decide
      · rw [async]
        decide
    have notWaiting : s.worker.status ≠ .workerWaitJob := by
      rcases ready with ⟨net, _⟩ | async
      · rw [net]
        decide
      · rw [async]
        decide
    refine sound_of_unclaimed (sound.unclaimed notBusy) (fun _ => ⟨rfl, rfl⟩)
      (fun _ => ⟨?_, ?_, rfl, rfl⟩) (fun _ _ => rfl) (Nat.zero_le 1) (fun d member => by cases member)
      fun _ noid => ?_
    · rw [status]
      exact notWaiting
    · rw [status]
      exact notBusy
    · simp only [Worker.begin] at noid ⊢
      split at noid
      · rename_i keeps
        rw [if_pos keeps]
        refine sound.modes (Or.inl ?_) noid
        rcases ready with ⟨net, notMode⟩ | async
        · rw [net, notMode] at keeps
          rcases keeps with waits | mode
          · cases waits
          · cases mode
        · rw [async]
          decide
      · cases noid
  · cases step

theorem Sound.result (sound : s.Sound) (step : Turn.result.step s = some t) : t.Sound := by
  rw [Turn.step] at step
  split at step
  · rename_i meets
    obtain ⟨_, _, _, owes, _⟩ := meets
    cases step
    have status : s.worker.post.status = .workerWaitResult := by
      unfold Worker.post
      split <;> exact owes
    refine sound_of_unclaimed (sound.unclaimed (by rw [owes]; decide)) (fun _ => ⟨rfl, rfl⟩)
      (fun _ => ⟨by rw [status]; decide, by rw [status]; decide, rfl, rfl⟩) (fun _ _ => rfl)
      (Nat.zero_le 1) (fun d member => by cases member) fun _ noid => ?_
    simp only [Worker.post] at noid ⊢
    split at noid
    · rename_i mode
      rw [if_pos mode]
      exact sound.modes (Or.inl (by rw [owes]; decide)) noid
    · cases noid
  · cases step

theorem Sound.flags (sound : s.Sound) (soon : s.asking = .soon) {worker : Worker}
    (status : worker.status = s.worker.status)
    (modes : worker.noid = true → worker.failOnDisconnect = true) :
    ({ s with worker := worker } : Shared).Sound := by
  obtain ⟨notWaiting, notBusy, held, taken⟩ := sound.soon soon
  refine sound_of_unclaimed (sound.unclaimed notBusy) (fun _ => ⟨held, taken⟩)
    (fun _ => ⟨?_, ?_, held, taken⟩) (fun _ _ => held) sound.one (fun d member => ?_) fun _ => modes
  · rw [status]
    exact notWaiting
  · rw [status]
    exact notBusy
  · rw [held] at member
    cases member

/-- The status written at the end of a section, when nobody has claimed. -/
theorem Sound.section_end (sound : s.Sound) (now : s.asking = .now) (untaken : s.taken = false)
    {worker : Worker} (modes : worker.noid = s.worker.noid ∧
      worker.failOnDisconnect = s.worker.failOnDisconnect) :
    ({ s with worker := worker } : Shared).Sound := by
  have held := sound.now now untaken
  refine sound_of_unclaimed (fun loop => ?_) (fun _ => ⟨held, untaken⟩) (fun soon => ?_)
    (fun _ _ => held) sound.one (fun d member => ?_) fun _ => ?_
  · cases claim : s.claims loop with
    | none => rfl
    | some c =>
        rw [(sound.claimed loop c claim).2.2] at untaken
        cases untaken
  · rw [now] at soon
    cases soon
  · have inHeld : d ∈ s.held := member
    rw [held] at inHeld
    cases inHeld
  · simp only [modes.1, modes.2]
    exact sound.modes (Or.inr (by rw [now]; decide))

theorem Sound.give (sound : s.Sound) {d : ConnId} (untaken : s.taken = false)
    (step : (Turn.give d).step s = some t) : t.Sound := by
  rw [Turn.step] at step
  split at step
  · rename_i meets
    obtain ⟨_, now⟩ := meets
    cases step
    have held := sound.now now untaken
    have modes := sound.modes (Or.inr (by rw [now]; decide))
    have unclaimed : ∀ loop, s.claims loop = none := by
      intro loop
      cases claim : s.claims loop with
      | none => rfl
      | some c =>
          rw [(sound.claimed loop c claim).2.2] at untaken
          cases untaken
    have one : (s.held ++ [d]).length ≤ 1 := by
      rw [held]
      exact Nat.le_refl 1
    by_cases noid : s.worker.noid = true
    · rw [if_pos noid]
      refine sound_of_unclaimed unclaimed (fun waits => by cases waits) (fun soon => by cases soon)
        (fun now => by cases now) one (fun e member _ => ?_) fun _ => modes
      have only : e ∈ s.held ++ [d] := member
      rw [held] at only
      rw [List.mem_singleton.mp only]
      exact ⟨by rw [Worker.giveNoid, if_pos (modes noid)], rfl⟩
    · rw [if_neg noid]
      exact sound_of_unclaimed unclaimed (fun waits => by cases waits) (fun soon => by cases soon)
        (fun now => by cases now) one (fun e member isNoid => absurd isNoid noid) fun _ => modes
  · cases step

theorem Sound.idle (sound : s.Sound) {asking : Asking} (notSoon : asking = .soon → s.asking = .soon)
    (now : asking = .now → s.asking = .soon ∨ s.asking = .now)
    (busy : asking ≠ .no → s.asking ≠ .no) : ({ s with asking := asking } : Shared).Sound :=
  { sound with
    soon := fun soon => sound.soon (notSoon soon)
    now := fun isNow untaken => by
      rcases now isNow with soon | before
      · exact (sound.soon soon).2.2.1
      · exact sound.now before untaken
    modes := fun cause => by
      rcases cause with notNet | asks
      · exact sound.modes (Or.inl notNet)
      · exact sound.modes (Or.inr (busy asks)) }

theorem Sound.conclude (sound : s.Sound) (step : Turn.conclude.step s = some t) : t.Sound := by
  rw [Turn.step] at step
  split at step
  · rename_i soon
    cases step
    obtain ⟨_, notBusy, held, taken⟩ := sound.soon soon
    refine sound_of_unclaimed (sound.unclaimed notBusy) (fun waits => by cases waits)
      (fun soon => by cases soon) (fun now => by cases now) sound.one (fun d member => ?_) fun cause => ?_
    · have inHeld : d ∈ s.held := member
      rw [held] at inHeld
      cases inHeld
    · rcases cause with notNet | asks
      · exact absurd rfl notNet
      · exact absurd rfl asks
  · cases step

theorem Sound.step (sound : s.Sound) {turn : Turn} (undisturbed : turn.Undisturbed s)
    (step : turn.step s = some t) : t.Sound := by
  cases turn with
  | claim loop c => exact sound.claim step
  | hand loop noResponse => exact sound.hand step
  | undo loop => exact sound.undo step
  | begin => exact sound.begin step
  | result => exact sound.result step
  | conclude => exact sound.conclude step
  | give d => exact sound.give (undisturbed rfl) step
  | workerMode on =>
      rw [Turn.step] at step
      split at step
      · rename_i soon
        cases step
        exact sound.flags soon rfl (sound.modes (Or.inr (by rw [soon]; decide)))
      · cases step
  | noIdMode =>
      rw [Turn.step] at step
      split at step
      · rename_i soon
        cases step
        exact sound.flags soon rfl fun _ => rfl
      · cases step
  | failMode =>
      rw [Turn.step] at step
      split at step
      · rename_i soon
        cases step
        exact sound.flags soon rfl fun _ => rfl
      · cases step
  | start =>
      rw [Turn.step] at step
      split at step
      · rename_i soon
        cases step
        exact sound.idle (fun nothing => by cases nothing) (fun _ => Or.inl soon)
          fun _ => by rw [soon]; decide
      · cases step
  | register =>
      rw [Turn.step] at step
      split at step
      · rename_i meets
        cases step
        exact sound.section_end meets.2 (undisturbed rfl) ⟨rfl, rfl⟩
      · cases step
  | giveAsync =>
      rw [Turn.step] at step
      split at step
      · rename_i meets
        cases step
        exact sound.section_end meets.2 (undisturbed rfl) ⟨rfl, rfl⟩
      · cases step
  | stop =>
      cases step
      exact sound.idle (fun nothing => by cases nothing) (fun nothing => by cases nothing)
        fun asks => absurd rfl asks

/-- A claim, and what it hands over until the request of the worker ends, is
written by the loop that claimed only. -/
theorem Sound.claim_stays (sound : s.Sound) {turn : Turn} (undisturbed : turn.Undisturbed s)
    (step : turn.step s = some t) (taken : s.taken = true)
    (going : s.asking = .now ∨ ∃ loop c, s.claims loop = some c) :
    t.worker = s.worker ∧ t.claims = s.claims ∨ (∃ loop noResponse, turn = .hand loop noResponse) ∨
      ∃ loop, turn = .undo loop := by
  have notReady : ¬ (s.asking = .no ∧ s.worker.status ≠ .busy) := by
    intro ready
    rcases going with now | ⟨loop, c, claim⟩
    · rw [ready.1] at now
      cases now
    · exact ready.2 (sound.claimed loop c claim).1
  have notSoon : s.asking ≠ .soon := by
    intro soon
    rw [(sound.soon soon).2.2.2] at taken
    cases taken
  have noSection : turn.isSection ≠ true := by
    intro isSection
    rw [undisturbed isSection] at taken
    cases taken
  cases turn with
  | hand loop noResponse => exact Or.inr (Or.inl ⟨loop, noResponse, rfl⟩)
  | undo loop => exact Or.inr (Or.inr ⟨loop, rfl⟩)
  | register => exact absurd rfl noSection
  | giveAsync => exact absurd rfl noSection
  | give d => exact absurd rfl noSection
  | stop =>
      cases step
      exact Or.inl ⟨rfl, rfl⟩
  | claim loop c =>
      rw [Turn.step] at step
      split at step
      · rename_i meets
        rw [(sound.waits meets.2.1).2] at taken
        cases taken
      · cases step
  | begin =>
      rw [Turn.step] at step
      split at step
      · rename_i meets
        refine absurd ⟨meets.2.1, ?_⟩ notReady
        rcases meets.2.2 with ⟨net, _⟩ | async
        · rw [net]
          decide
        · rw [async]
          decide
      · cases step
  | result =>
      rw [Turn.step] at step
      split at step
      · rename_i meets
        refine absurd ⟨meets.2.1, ?_⟩ notReady
        rw [meets.2.2.2.1]
        decide
      · cases step
  | workerMode on => exact absurd step (by rw [Turn.step, if_neg notSoon]; exact fun nothing => by cases nothing)
  | noIdMode => exact absurd step (by rw [Turn.step, if_neg notSoon]; exact fun nothing => by cases nothing)
  | failMode => exact absurd step (by rw [Turn.step, if_neg notSoon]; exact fun nothing => by cases nothing)
  | conclude => exact absurd step (by rw [Turn.step, if_neg notSoon]; exact fun nothing => by cases nothing)
  | start => exact absurd step (by rw [Turn.step, if_neg notSoon]; exact fun nothing => by cases nothing)

/-! ### Runs -/

inductive Run (allowed : Turn → Shared → Prop) (start : Shared) : Shared → Prop where
  | start : Run allowed start start
  | step {s t : Shared} (turn : Turn) (run : Run allowed start s) (meets : allowed turn s)
      (step : turn.step s = some t) : Run allowed start t

theorem Run.sound {start : Shared} (new : start.New) (run : Run Turn.Undisturbed start s) : s.Sound := by
  induction run with
  | start => exact new.sound
  | step turn _ undisturbed step ih => exact ih.step undisturbed step

/-- A worker that is never claimed between two of its sections holds at most one
unanswered task, and no claim of it is overwritten or undone. -/
theorem one_task {start : Shared} (new : start.New) (run : Run Turn.Undisturbed start s) :
    s.held.length ≤ 1 ∧
      (∀ loop c, s.claims loop = some c → s.worker.status = .busy ∧ s.held = []) ∧
      (∀ c ∈ s.held, s.worker.noid = true →
        s.worker.client = some c ∧ s.worker.status = .workerWaitResult) ∧
      ∀ turn t, Turn.Undisturbed turn s → turn.step s = some t → s.taken = true →
        (s.asking = .now ∨ ∃ loop c, s.claims loop = some c) →
        t.worker = s.worker ∧ t.claims = s.claims ∨
          (∃ loop noResponse, turn = .hand loop noResponse) ∨ ∃ loop, turn = .undo loop := by
  have sound := run.sound new
  refine ⟨sound.one, fun loop c claim => ?_, sound.client, fun turn t undisturbed step taken going => ?_⟩
  · obtain ⟨busy, held, _⟩ := sound.claimed loop c claim
    exact ⟨busy, held⟩
  · exact sound.claim_stays undisturbed step taken going

/-! ### A claim between two names -/

/-- A connection of loop 0. -/
def freshWorker : Shared where
  worker := { status := .net, noid := false, workerMode := false, failOnDisconnect := false, client := none }
  claims := fun _ => none
  own := 0
  asking := .no
  held := []
  taken := false

theorem freshWorker_new : freshWorker.New where
  claims := fun _ => rfl
  asking := rfl
  held := rfl
  taken := rfl
  status := rfl

section

variable (allowed : Turn → Shared → Prop) [∀ turn s, Decidable (allowed turn s)]

def turnAll : List Turn → Shared → Option Shared
  | [], s => some s
  | turn :: turns, s => if allowed turn s then (turn.step s).bind (turnAll turns) else none

theorem run_turnAll {turns : List Turn} {start : Shared} (run : Run allowed start s)
    (turned : turnAll allowed turns s = some t) : Run allowed start t := by
  induction turns generalizing s with
  | nil =>
      cases turned
      exact run
  | cons turn turns ih =>
      rw [turnAll] at turned
      split at turned
      · rename_i meets
        obtain ⟨next, step, later⟩ := Option.bind_eq_some_iff.mp turned
        exact ih (.step turn run meets step) later
      · cases turned

end

/-- A `get+` worker in the queues `a` and `b` is claimed after that. -/
def claimedAfter : List Turn :=
  [.begin, .noIdMode, .start, .register, .register, .stop, .claim 1 5, .hand 1 false]

theorem one_task_after :
    ∃ s : Shared, s.held = [5] ∧ s.held.length ≤ 1 ∧ s.worker.client = some 5 := by
  have ran : (turnAll Turn.Undisturbed claimedAfter freshWorker).map
      (fun s => (s.held, s.worker.noid)) = some ([5], true) := by decide
  obtain ⟨s, turned, facts⟩ := Option.map_eq_some_iff.mp ran
  rw [Prod.mk.injEq] at facts
  obtain ⟨one, _, client, _⟩ :=
    one_task freshWorker_new (run_turnAll Turn.Undisturbed .start turned)
  exact ⟨s, facts.1, one, (client 5 (by rw [facts.1]; exact List.mem_singleton_self 5) facts.2).1⟩

/-- A `get+` worker asks for `a,b`; loop 1 claims it in `a` and hands it the task
of client 5 before the own loop finds the task of client 6 in `b`. -/
def claimedBetween : List Turn :=
  [.begin, .noIdMode, .start, .register, .claim 1 5, .hand 1 false, .give 6]

theorem two_tasks_held :
    ¬ ∀ start s : Shared, start.New → Run (fun _ _ => True) start s → s.held.length ≤ 1 := by
  intro always
  have ran : (turnAll (fun _ _ => True) claimedBetween freshWorker).map (fun s => s.held) = some [5, 6] := by decide
  obtain ⟨s, turned, held⟩ := Option.map_eq_some_iff.mp ran
  have one := always freshWorker s freshWorker_new (run_turnAll _ .start turned)
  rw [held] at one
  exact absurd one (by decide)

end Shared

end Ijson
