/-
The mutexes of the server: who takes which, in which order.

Every function that takes a mutex is a tree of lock operations; what it finds
(which entries a deque holds, whether a name is new) is a parameter.  A section
ends in one of two ways: the mutexes are given back, or one is left locked, by
`delete_queue`, which destroys it, or by an exception past a plain `lock()`.
-/

import Mathlib.Data.Fin.VecNotation
import Ijson.OrderedLocks
import Ijson.Server

namespace Ijson

inductive Mutex where
  | delLock (loop : Nat)
  | globalLock
  | mapperMutex
  | freeLock
  | queueMutex (queue : Nat)
  | workersLock (queue : Nat)
  | connMutex (c : ConnId)
  | waitLock
  deriving DecidableEq

/-! ### `Lock` -/

/-- `mask` is a `u64`. -/
structure Lock where
  mask : BitVec 64

namespace Lock

def new : Lock := ⟨0⟩

/-- `u64 v = 1 << n`: the shift is one of an `int`, undefined from 32 on. -/
def bit (n : Nat) : Option (BitVec 64) :=
  if n < 32 then some ((1#32 <<< n).signExtend 64) else none

/-- `Lock::lock`, and the loop whose `del_lock` it takes. -/
def lock (l : Lock) (n : Nat) : Option (Lock × Option Nat) :=
  (bit n).map fun v => if l.mask &&& v ≠ 0 then (l, none) else (⟨l.mask ||| v⟩, some n)

/-- The loops whose `del_lock` `Lock::unlock` gives back. -/
def unlock (l : Lock) (threads : Nat) : List Nat :=
  (List.range threads).filter fun i => (1#64 <<< i) &&& l.mask ≠ 0

/-- The loop of `autolock`. -/
def lockOthers (except : Int) (l : Lock) : List Nat → Option (Lock × List Nat)
  | [] => some (l, [])
  | i :: rest =>
      if (i : Int) ≠ except then
        (l.lock i).bind fun locked =>
          (lockOthers except locked.1 rest).map fun later => (later.1, locked.2.toList ++ later.2)
      else lockOthers except l rest

end Lock

/-- `Server::autolock`, and the loops whose `del_lock` it takes. -/
def autolock (threads : Nat) (except : Int) : Option (Lock × List Nat) :=
  Lock.new.lockOthers except (List.range threads)

/-- The other loops. -/
def otherLoops (threads : Nat) (except : Int) : List Nat :=
  (List.range threads).filter fun (i : Nat) => (i : Int) ≠ except

/-! ### What the functions lock -/

namespace Mutex

open LockProgram

/-- `autolock(_nloop)` until its `Lock` is destroyed. -/
def autolocked (threads loop : Nat) (body : LockProgram Mutex) : Option (LockProgram Mutex) :=
  (autolock threads loop).map fun locked =>
    acquireAll (locked.2.map .delLock) (body.seq (releaseAll ((locked.1.unlock threads).map .delLock) .done))

/-- The status of a connection is claimed. -/
def claim (c : ConnId) : LockProgram Mutex := holding (.connMutex c) .done

/-- `wait_response` is looked up or changed. -/
def waitResponse : LockProgram Mutex := holding .waitLock .done

/-- `WorkerItem::pop`, `WorkerList::push`. -/
def workerList (queue : Nat) : LockProgram Mutex := holding (.workersLock queue) .done

def times (n : Nat) (program : LockProgram Mutex) : LockProgram Mutex := inTurn (List.replicate n program)

def when (b : Bool) (program : LockProgram Mutex) : LockProgram Mutex := if b then program else .done

/-- The mutex is left locked. -/
def leaving (lock : Mutex) (body : LockProgram Mutex) : LockProgram Mutex :=
  .acquire lock (body.seq (.lose lock .done))

/-- `Mapper::add`: a wrong character leaves the mutex locked. -/
def mapperAdd (thrown grown : Bool) : LockProgram Mutex :=
  if thrown then leaving .mapperMutex .done
  else (holding .mapperMutex .done).seq (when grown (holding .freeLock .done))

/-- `get_queue` of a name that is not known when it is looked up first; `added`
is what `Mapper::add` does when it is reached. -/
def getQueue (added : Option (Bool × Bool)) : LockProgram Mutex :=
  holding .globalLock <|
    match added with
    | none => .done
    | some (thrown, grown) => mapperAdd thrown grown

/-- `delete_queue`; `found` is the queue with the length of its worker list. -/
def deleteQueue (found : Option (Nat × Nat)) : LockProgram Mutex :=
  holding .globalLock <|
    match found with
    | none => .done
    | some (queue, items) => leaving (.queueMutex queue) (times items (workerList queue))

/-- A client `_add_worker` takes a task of, and whether its id is looked up. -/
def claimTask (task : ConnId × Bool) : LockProgram Mutex := (claim task.1).seq (when task.2 waitResponse)

/-- `_add_worker` under the mutex of the queue. -/
def serveQueue (queue : Nat) (tasks : List (ConnId × Bool)) (inserts joins : Bool) : LockProgram Mutex :=
  (inTurn (tasks.map claimTask)).seq ((when inserts waitResponse).seq (when joins (workerList queue)))

/-- `client_request` under the mutex of the queue. -/
def clientRequest (queue : Nat) (workers : List ConnId) (lookUps : Nat) : LockProgram Mutex :=
  holding (.queueMutex queue) ((inTurn (workers.map claim)).seq (times lookUps waitResponse))

/-- One queue of `_check_timeout`. -/
def expireQueue (queue : Nat × List ConnId) : LockProgram Mutex :=
  holding (.queueMutex queue.1) (inTurn (queue.2.map claim))

/-- One queue of `_clean_dead_tasks`. -/
def cleanQueue (queue : Nat) : LockProgram Mutex :=
  .attempt (.queueMutex queue) (.release (.queueMutex queue) .done) .done

end Mutex

/-- What a thread does that takes mutexes.  `left` is the worker list that
`_add_worker` takes the worker out of, `item` the one `on_disconnect` does.  An
`_add_worker` that ends in `get_queue` is a section `getQueue`. -/
inductive Section where
  | getQueue (added : Option (Bool × Bool))
  | deleteQueue (found : Option (Nat × Nat))
  | addWorker (created : Option (Option Bool)) (left : Option Nat) (queue : Nat)
      (tasks : List (ConnId × Bool)) (inserts joins thrown : Bool)
  | clientRequest (queue : Nat) (workers : List ConnId) (lookUps : Nat)
  | workerResult
  | onDisconnect (item : Option Nat) (lookUps : Nat)
  | stop (queue : Nat)
  | pub (queue : Nat) (workers : List ConnId)
  | sendDetails
  | checkTimeout (queues : List (Nat × List ConnId)) (thrown : Bool)
  | deleteConnections (loop : Nat)
  | migrateSend (loop wakes : Nat)
  | migrateRecv (loop : Nat) (requests : List (Nat × List ConnId × Nat))
  | freeMemory
  | cleanDeadTasks (queues : List Nat)

namespace Section

open LockProgram Mutex

/-- `none` where a shift of `autolock` is undefined. -/
def program (threads : Nat) : Section → Option (LockProgram Mutex)
  | .getQueue added => some (Mutex.getQueue added)
  | .deleteQueue found => some (Mutex.deleteQueue found)
  | .addWorker created left queue tasks inserts joins thrown =>
      some (((created.map fun grown => Mutex.getQueue (grown.map (Prod.mk false))).getD .done).seq
        (((left.map workerList).getD .done).seq
          (if thrown then leaving (.queueMutex queue) (serveQueue queue tasks inserts joins)
          else holding (.queueMutex queue) (serveQueue queue tasks inserts joins))))
  | .clientRequest queue workers lookUps => some (Mutex.clientRequest queue workers lookUps)
  | .workerResult => some waitResponse
  | .onDisconnect item lookUps => some (((item.map workerList).getD .done).seq (times lookUps waitResponse))
  | .stop queue => some (workerList queue)
  | .pub queue workers => some (holding (.workersLock queue) (inTurn (workers.map claim)))
  | .sendDetails => some (holding .globalLock .done)
  | .checkTimeout queues thrown =>
      some (.attempt .globalLock ((inTurn (queues.map expireQueue)).seq
        (if thrown then .lose .globalLock .done else .release .globalLock .done)) .done)
  | .deleteConnections loop => some (.attempt (.delLock loop) (.release (.delLock loop) .done) .done)
  | .migrateSend loop wakes => autolocked threads loop (times wakes (holding .globalLock .done))
  | .migrateRecv loop requests =>
      autolocked threads loop
        (inTurn (requests.map fun request => Mutex.clientRequest request.1 request.2.1 request.2.2))
  | .freeMemory => some (holding .freeLock .done)
  | .cleanDeadTasks queues => some (holding .globalLock (inTurn (queues.map cleanQueue)))

/-- The loop that calls `autolock`, and what it does before the `Lock` is destroyed. -/
def underLock : Section → Option (Nat × LockProgram Mutex)
  | .migrateSend loop wakes => some (loop, times wakes (holding .globalLock .done))
  | .migrateRecv loop requests =>
      some (loop, inTurn (requests.map fun request => Mutex.clientRequest request.1 request.2.1 request.2.2))
  | _ => none

/-- The mutexes a section leaves locked. -/
def leaves : Section → List Mutex
  | .getQueue (some (true, _)) => [.mapperMutex]
  | .deleteQueue (some (queue, _)) => [.queueMutex queue]
  | .addWorker _ _ queue _ _ _ true => [.queueMutex queue]
  | .checkTimeout _ true => [.globalLock]
  | _ => []

/-- The sections of a thread one after another. -/
def programOf (threads : Nat) : List Section → Option (LockProgram Mutex)
  | [] => some .done
  | one :: rest => (one.program threads).bind fun first => (programOf threads rest).map first.seq

end Section

/-! ### The mask -/

namespace Lock

theorem and_bit {w : Nat} (m : BitVec w) {n : Nat} (inside : n < w) :
    m &&& (1#w <<< n) = 0 ↔ m.getLsbD n = false := by
  constructor
  · intro empty
    have bits := congrArg (fun b => BitVec.getLsbD b n) empty
    simpa [inside] using bits
  · intro clear
    ext i below
    by_cases same : i = n
    · subst same
      simpa [← BitVec.getLsbD_eq_getElem] using fun set => absurd clear (by simp [set])
    · simp [← BitVec.getLsbD_eq_getElem, BitVec.getLsbD_shiftLeft]
      omega

theorem lock_clear {m : BitVec 32} {n : Nat} (inside : n < 32) (clear : m.getLsbD n = false) :
    lock ⟨m.signExtend 64⟩ n = some (⟨(m ||| (1#32 <<< n)).signExtend 64⟩, some n) := by
  have apart : m.signExtend 64 &&& (1#32 <<< n).signExtend 64 = 0 := by
    rw [← BitVec.signExtend_and, (and_bit m inside).mpr clear]
    rfl
  simp [lock, bit, inside, apart, BitVec.signExtend_or]

theorem lockOthers_eq (except : Int) {m : BitVec 32} {ns : List Nat} (inside : ∀ n ∈ ns, n < 32)
    (distinct : ns.Nodup) (clear : ∀ n ∈ ns, m.getLsbD n = false) :
    ∃ after : BitVec 32, lockOthers except ⟨m.signExtend 64⟩ ns =
        some (Lock.mk (after.signExtend 64), ns.filter fun (i : Nat) => (i : Int) ≠ except) ∧
      ∀ i < 32, after.getLsbD i = (m.getLsbD i || decide (i ∈ ns ∧ (i : Int) ≠ except)) := by
  induction ns generalizing m with
  | nil => exact ⟨m, rfl, fun i _ => by simp⟩
  | cons n ns ih =>
      rw [List.nodup_cons] at distinct
      have others : ∀ other ∈ ns, other < 32 := fun other member => inside other (List.mem_cons_of_mem n member)
      by_cases skipped : (n : Int) = except
      · obtain ⟨after, locked, bits⟩ := ih others distinct.2 fun other member =>
          clear other (List.mem_cons_of_mem n member)
        refine ⟨after, ?_, fun i below => ?_⟩
        · rw [lockOthers, if_neg (not_not.mpr skipped), locked]
          simp [skipped]
        · rw [bits i below]
          congr 1
          by_cases same : i = n
          · subst same
            simp [skipped]
          · simp [same]
      · have small := inside n List.mem_cons_self
        obtain ⟨after, locked, bits⟩ := ih (m := m ||| (1#32 <<< n)) others distinct.2 (by
          intro other member
          have apart : other ≠ n := fun same => distinct.1 (same ▸ member)
          rw [BitVec.getLsbD_or, clear other (List.mem_cons_of_mem n member)]
          simp [BitVec.getLsbD_shiftLeft]
          omega)
        refine ⟨after, ?_, fun i below => ?_⟩
        · rw [lockOthers, if_pos skipped, lock_clear small (clear n List.mem_cons_self), Option.bind_some, locked]
          simp [skipped]
        · rw [bits i below, BitVec.getLsbD_or, Bool.or_assoc]
          congr 1
          by_cases same : i = n
          · subst same
            simp [below, skipped]
          · simp [BitVec.getLsbD_shiftLeft, same]
            omega

end Lock

/-- With the threads the options allow, the mask holds what is taken: the others,
in their order, and the same is given back. -/
theorem autolock_eq {threads : Nat} (few : threads ≤ 32) (except : Int) :
    ∃ l, autolock threads except = some (l, otherLoops threads except) ∧
      l.unlock threads = otherLoops threads except := by
  have inside : ∀ n ∈ List.range threads, n < 32 := fun n member => (List.mem_range.mp member).trans_le few
  obtain ⟨mask, locked, bits⟩ := Lock.lockOthers_eq except (m := 0) inside List.nodup_range
    fun n _ => BitVec.getLsbD_zero
  refine ⟨_, locked, ?_⟩
  apply List.filter_congr
  intro i member
  have small := inside i member
  have set : mask.getLsbD i = decide ((i : Int) ≠ except) := by
    rw [bits i small]
    simp [List.mem_range.mp member]
  have wide : (1#64 <<< i) &&& mask.signExtend 64 = 0 ↔ mask.getLsbD i = false := by
    rw [BitVec.and_comm, Lock.and_bit _ (by omega), BitVec.getLsbD_signExtend]
    simp [small]
    omega
  by_cases skipped : (i : Int) = except
  · have clear := wide.mpr (by rw [set]; simp [skipped])
    simp [clear, skipped]
  · have taken := mt wide.mp (by rw [set]; simp [skipped])
    simpa [skipped] using taken

/-! ### The order of the mutexes -/

namespace Mutex

/-- The mutexes taken while others are held rank above them.  No function takes
two of one kind but `autolock`. -/
def rank : Mutex → Nat
  | .delLock loop => loop + 1
  | .globalLock => 64
  | .mapperMutex => 65
  | .freeLock => 66
  | .queueMutex _ => 67
  | .workersLock _ => 68
  | .connMutex _ => 69
  | .waitLock => 70

open LockProgram

section Levels

variable {level : Nat}

theorem within_when {b : Bool} {program : LockProgram Mutex} (within : program.Within rank level) :
    (when b program).Within rank level := by
  cases b with
  | false => exact within_done level
  | true => exact within

theorem within_times {program : LockProgram Mutex} (n : Nat) (within : program.Within rank level) :
    (times n program).Within rank level :=
  within_inTurn fun other member => by
    rw [List.eq_of_mem_replicate member]
    exact within

theorem within_each {α : Type} {items : List α} {each : α → LockProgram Mutex}
    (within : ∀ item, (each item).Within rank level) : (inTurn (items.map each)).Within rank level :=
  within_inTurn fun program member => by
    obtain ⟨item, -, rfl⟩ := List.mem_map.mp member
    exact within item

theorem within_optional {α : Type} {item : Option α} {each : α → LockProgram Mutex}
    (within : ∀ item, (each item).Within rank level) : ((item.map each).getD .done).Within rank level := by
  cases item with
  | none => exact within_done level
  | some item => exact within item

theorem claim_within (below : level < 69) (c : ConnId) : (claim c).Within rank level :=
  Within.holding below (within_done 69)

theorem waitResponse_within (below : level < 70) : waitResponse.Within rank level :=
  Within.holding below (within_done 70)

theorem workerList_within (below : level < 68) (queue : Nat) : (workerList queue).Within rank level :=
  Within.holding below (within_done 68)

theorem mapperAdd_within (below : level < 65) (thrown grown : Bool) :
    (mapperAdd thrown grown).Within rank level := by
  cases thrown with
  | true => exact Within.losing below (within_done 65)
  | false =>
      have list : (holding .freeLock .done).Within rank level :=
        Within.holding (show level < 66 by omega) (within_done 66)
      have own : (holding .mapperMutex .done).Within rank level := Within.holding below (within_done 65)
      exact own.seq (within_when list)

theorem getQueue_within (below : level < 64) (added : Option (Bool × Bool)) :
    (getQueue added).Within rank level := by
  refine Within.holding below ?_
  cases added with
  | none => exact within_done 64
  | some result => exact mapperAdd_within (show 64 < 65 by decide) result.1 result.2

theorem deleteQueue_within (below : level < 64) (found : Option (Nat × Nat)) :
    (deleteQueue found).Within rank level := by
  refine Within.holding below ?_
  cases found with
  | none => exact within_done 64
  | some queue =>
      exact Within.losing (show 64 < 67 by decide)
        (within_times queue.2 (workerList_within (show 67 < 68 by decide) queue.1))

theorem serveQueue_within (queue : Nat) (tasks : List (ConnId × Bool)) (inserts joins : Bool) :
    (serveQueue queue tasks inserts joins).Within rank 67 := by
  have waits : waitResponse.Within rank 67 := waitResponse_within (by decide)
  refine (within_each fun task => ?_).seq ((within_when waits).seq (within_when ?_))
  · exact (claim_within (by decide) task.1).seq (within_when waits)
  · exact workerList_within (by decide) queue

theorem clientRequest_within (below : level < 67) (queue : Nat) (workers : List ConnId) (lookUps : Nat) :
    (clientRequest queue workers lookUps).Within rank level :=
  Within.holding below ((within_each (claim_within (show 67 < 69 by decide))).seq
    (within_times lookUps (waitResponse_within (show 67 < 70 by decide))))

theorem expireQueue_within (queue : Nat × List ConnId) : (expireQueue queue).Within rank 64 :=
  Within.holding (show 64 < 67 by decide) (within_each (claim_within (show 67 < 69 by decide)))

theorem cleanQueue_within (queue : Nat) : (cleanQueue queue).Within rank 64 :=
  Within.trying .done (show 64 < 67 by decide) (within_done 67) (.inl rfl)

end Levels

theorem autolocked_eq {threads : Nat} (few : threads ≤ 32) (loop : Nat) (body : LockProgram Mutex) :
    autolocked threads loop body = some (acquireAll ((otherLoops threads loop).map delLock)
      (body.seq (releaseAll ((otherLoops threads loop).map delLock) .done))) := by
  obtain ⟨l, locked, given⟩ := autolock_eq few loop
  rw [autolocked, locked, ← given]
  rfl

/-- The locks of `autolock` are taken in their order, and the section may take
all others. -/
theorem autolocked_within {threads loop : Nat} {body : LockProgram Mutex} (few : threads ≤ 32)
    (within : body.Within rank 63) :
    ∃ program, autolocked threads loop body = some program ∧ program.Within rank 0 := by
  refine ⟨_, autolocked_eq few loop body, ?_⟩
  have inside : ∀ lock ∈ (otherLoops threads loop).map delLock, 0 < rank lock ∧ rank lock ≤ 63 := by
    intro lock member
    obtain ⟨n, other, rfl⟩ := List.mem_map.mp member
    have below := List.mem_range.mp (List.mem_of_mem_filter other)
    simp only [rank]
    omega
  refine within_several ?_ (fun lock member => (inside lock member).1)
    (fun lock member => (inside lock member).2) (Nat.zero_le 63) within
  have ascending : (otherLoops threads loop).Pairwise (· < ·) := List.pairwise_lt_range.filter _
  exact ascending.map delLock fun one two less => Nat.succ_lt_succ less

end Mutex

namespace Section

open LockProgram Mutex

/-- Every section takes its mutexes in the order. -/
theorem program_within {threads : Nat} (few : threads ≤ 32) (part : Section) :
    ∃ program, part.program threads = some program ∧ program.Within rank 0 := by
  cases part with
  | getQueue added => exact ⟨_, rfl, getQueue_within (by decide) added⟩
  | deleteQueue found => exact ⟨_, rfl, deleteQueue_within (by decide) found⟩
  | addWorker created left queue tasks inserts joins thrown =>
      refine ⟨_, rfl, (within_optional fun grown => getQueue_within (by decide) _).seq
        ((within_optional (workerList_within (by decide))).seq ?_)⟩
      have serves := serveQueue_within queue tasks inserts joins
      cases thrown with
      | true => exact Within.losing (show 0 < 67 by decide) serves
      | false => exact Within.holding (show 0 < 67 by decide) serves
  | clientRequest queue workers lookUps => exact ⟨_, rfl, clientRequest_within (by decide) queue workers lookUps⟩
  | workerResult => exact ⟨_, rfl, waitResponse_within (by decide)⟩
  | onDisconnect item lookUps =>
      exact ⟨_, rfl, (within_optional (workerList_within (by decide))).seq
        (within_times lookUps (waitResponse_within (by decide)))⟩
  | stop queue => exact ⟨_, rfl, workerList_within (by decide) queue⟩
  | pub queue workers =>
      exact ⟨_, rfl, Within.holding (show 0 < 68 by decide) (within_each (claim_within (show 68 < 69 by decide)))⟩
  | sendDetails => exact ⟨_, rfl, Within.holding (show 0 < 64 by decide) (within_done 64)⟩
  | checkTimeout queues thrown =>
      refine ⟨_, rfl, Within.trying _ (show 0 < 64 by decide) (within_each expireQueue_within) ?_⟩
      cases thrown with
      | true => exact .inr rfl
      | false => exact .inl rfl
  | deleteConnections loop =>
      exact ⟨_, rfl, Within.trying .done (Nat.succ_pos loop) (within_done (loop + 1)) (.inl rfl)⟩
  | migrateSend loop wakes =>
      have wake : (holding .globalLock .done).Within rank 63 :=
        Within.holding (show 63 < 64 by decide) (within_done 64)
      exact autolocked_within few (within_times wakes wake)
  | migrateRecv loop requests =>
      exact autolocked_within few (within_each fun request => clientRequest_within (by decide) _ _ _)
  | freeMemory => exact ⟨_, rfl, Within.holding (show 0 < 66 by decide) (within_done 66)⟩
  | cleanDeadTasks queues =>
      exact ⟨_, rfl, Within.holding (show 0 < 64 by decide) (within_each cleanQueue_within)⟩

theorem programOf_within {threads : Nat} (few : threads ≤ 32) (parts : List Section) :
    ∃ program, programOf threads parts = some program ∧ program.Within rank 0 := by
  induction parts with
  | nil => exact ⟨_, rfl, within_done 0⟩
  | cons part parts ih =>
      obtain ⟨first, isFirst, one⟩ := program_within few part
      obtain ⟨later, isLater, two⟩ := ih
      exact ⟨first.seq later, by rw [programOf, isFirst, isLater]; rfl, one.seq two⟩

end Section

/-! ### What is left locked -/

namespace Mutex

open LockProgram

section Left

variable {lock : Mutex}

@[simp] theorem loses_when {b : Bool} {program : LockProgram Mutex} :
    (when b program).Loses lock ↔ b = true ∧ program.Loses lock := by
  cases b <;> simp [when, Loses]

@[simp] theorem loses_optional {α : Type} {item : Option α} {each : α → LockProgram Mutex} :
    ((item.map each).getD .done).Loses lock ↔ ∃ found ∈ item, (each found).Loses lock := by
  cases item <;> simp [Loses]

@[simp] theorem claim_loses_none (c : ConnId) : ¬(claim c).Loses lock := by simp [claim, Loses]

@[simp] theorem waitResponse_loses_none : ¬waitResponse.Loses lock := by simp [waitResponse, Loses]

@[simp] theorem workerList_loses_none (queue : Nat) : ¬(workerList queue).Loses lock := by
  simp [workerList, Loses]

@[simp] theorem times_loses {n : Nat} {program : LockProgram Mutex} :
    (times n program).Loses lock ↔ n ≠ 0 ∧ program.Loses lock := by
  simp [times, loses_inTurn]

@[simp] theorem leaving_loses {other : Mutex} {body : LockProgram Mutex} :
    (leaving other body).Loses lock ↔ body.Loses lock ∨ other = lock := by
  simp [leaving, Loses]

@[simp] theorem claimTask_loses_none (task : ConnId × Bool) : ¬(claimTask task).Loses lock := by
  simp [claimTask]

@[simp] theorem serveQueue_loses_none (queue : Nat) (tasks : List (ConnId × Bool)) (inserts joins : Bool) :
    ¬(serveQueue queue tasks inserts joins).Loses lock := by
  simp [serveQueue]

@[simp] theorem clientRequest_loses_none (queue : Nat) (workers : List ConnId) (lookUps : Nat) :
    ¬(clientRequest queue workers lookUps).Loses lock := by
  simp [clientRequest]

@[simp] theorem expireQueue_loses_none (queue : Nat × List ConnId) : ¬(expireQueue queue).Loses lock := by
  simp [expireQueue]

@[simp] theorem cleanQueue_loses_none (queue : Nat) : ¬(cleanQueue queue).Loses lock := by
  simp [cleanQueue, Loses]

theorem mapperAdd_loses {thrown grown : Bool} :
    (mapperAdd thrown grown).Loses lock ↔ thrown = true ∧ lock = .mapperMutex := by
  cases thrown <;> simp [mapperAdd, Loses, eq_comm]

theorem getQueue_loses {added : Option (Bool × Bool)} :
    (getQueue added).Loses lock ↔ ∃ result ∈ added, result.1 = true ∧ lock = .mapperMutex := by
  cases added with
  | none => simp [getQueue, Loses]
  | some result => simp [getQueue, mapperAdd_loses]

theorem deleteQueue_loses {found : Option (Nat × Nat)} :
    (deleteQueue found).Loses lock ↔ ∃ queue ∈ found, lock = .queueMutex queue.1 := by
  cases found with
  | none => simp [deleteQueue, Loses]
  | some queue => simp [deleteQueue, eq_comm]

end Left

end Mutex

namespace Section

open LockProgram Mutex

theorem leaves_of_loses {threads : Nat} (few : threads ≤ 32) {part : Section} {program : LockProgram Mutex}
    {lock : Mutex} (isProgram : part.program threads = some program) (loses : program.Loses lock) :
    lock ∈ part.leaves := by
  cases part with
  | getQueue added =>
      cases isProgram
      obtain ⟨⟨thrown, grown⟩, rfl, rfl, rfl⟩ := getQueue_loses.mp loses
      exact List.mem_singleton_self _
  | deleteQueue found =>
      cases isProgram
      obtain ⟨⟨queue, items⟩, rfl, rfl⟩ := deleteQueue_loses.mp loses
      exact List.mem_singleton_self _
  | addWorker created left queue tasks inserts joins thrown =>
      cases isProgram
      cases thrown with
      | true =>
          have own : lock = .queueMutex queue := by
            simp only [if_pos, loses_seq, loses_optional, leaving_loses, workerList_loses_none,
              serveQueue_loses_none, and_false, exists_const, false_or] at loses
            rcases loses with ⟨grown, -, failed⟩ | same
            · obtain ⟨result, added, failed, -⟩ := getQueue_loses.mp failed
              obtain ⟨size, -, rfl⟩ := Option.map_eq_some_iff.mp added
              cases failed
            · exact same.symm
          rw [own]
          exact List.mem_singleton_self _
      | false => simp [getQueue_loses] at loses
  | checkTimeout queues thrown =>
      cases isProgram
      cases thrown with
      | true =>
          simp [Loses] at loses
          simp [leaves, loses]
      | false => simp [Loses] at loses
  | migrateSend loop wakes =>
      rw [Section.program, autolocked_eq few] at isProgram
      cases isProgram
      simp [Loses] at loses
  | migrateRecv loop requests =>
      rw [Section.program, autolocked_eq few] at isProgram
      cases isProgram
      simp [Loses] at loses
  | clientRequest queue workers lookUps =>
      cases isProgram
      simp at loses
  | workerResult =>
      cases isProgram
      simp at loses
  | onDisconnect item lookUps =>
      cases isProgram
      simp at loses
  | stop queue =>
      cases isProgram
      simp at loses
  | pub queue workers =>
      cases isProgram
      simp at loses
  | sendDetails =>
      cases isProgram
      simp [Loses] at loses
  | deleteConnections loop =>
      cases isProgram
      simp [Loses] at loses
  | freeMemory =>
      cases isProgram
      simp [Loses] at loses
  | cleanDeadTasks queues =>
      cases isProgram
      simp at loses

theorem leaves_of_programOf {threads : Nat} (few : threads ≤ 32) {parts : List Section}
    {program : LockProgram Mutex} {lock : Mutex} (isProgram : programOf threads parts = some program)
    (loses : program.Loses lock) : ∃ part ∈ parts, lock ∈ part.leaves := by
  induction parts generalizing program with
  | nil =>
      cases isProgram
      exact absurd loses id
  | cons part parts ih =>
      rw [programOf] at isProgram
      obtain ⟨first, isFirst, behind⟩ := Option.bind_eq_some_iff.mp isProgram
      obtain ⟨later, isLater, rfl⟩ := Option.map_eq_some_iff.mp behind
      rcases (loses_seq first later).mp loses with own | others
      · exact ⟨part, List.mem_cons_self, leaves_of_loses few isFirst own⟩
      · obtain ⟨other, member, left⟩ := ih isLater others
        exact ⟨other, List.mem_cons_of_mem part member, left⟩

end Section

/-! ### All threads -/

/-- However the threads take turns, a run ends; and when no thread can go on,
either all have done what they had to do and nothing is held, or one waits for a
mutex that some section has left locked. -/
theorem only_left_mutexes_block {τ : Type} [Fintype τ] [DecidableEq τ] {threads : Nat} (few : threads ≤ 32)
    (parts : τ → List Section) :
    ∃ programs : τ → LockProgram Mutex,
      (∀ t, Section.programOf threads (parts t) = some (programs t)) ∧
      ∀ order s, (Threads.start programs).run order = some s →
        order.length ≤ ∑ t, (programs t).size ∧
        ((∀ t, s.step t = none) →
          ((∀ t, s.rest t = .done) ∧ ∀ t lock, s.locks lock ≠ .heldBy t) ∨
          ∃ t lock, s.WaitsFor t lock ∧ s.locks lock = .lost ∧
            ∃ u, ∃ part ∈ parts u, lock ∈ part.leaves) := by
  choose programs isProgram within using fun t => Section.programOf_within few (parts t)
  refine ⟨programs, isProgram, fun order s ran => ⟨?_, fun stopped => ?_⟩⟩
  · exact (Nat.le_add_right _ _).trans (Threads.run_length ran)
  · have sound : Threads.Sound Mutex.rank programs s := (Threads.start_sound within).run ran
    rcases sound.stands_still stopped with ended | ⟨t, lock, waits, lost⟩
    · refine .inl ⟨ended, fun t lock held => ?_⟩
      rcases sound.all_given ended lock with free | lost
      · rw [free] at held
        cases held
      · rw [lost] at held
        cases held
    · obtain ⟨u, loses⟩ := sound.lost lock lost
      exact .inr ⟨t, lock, waits, lost, u, Section.leaves_of_programOf few (isProgram u) loses⟩

/-- A dispatch, a worker and a passing timeout on three loops. -/
theorem only_left_mutexes_block_three :
    ∃ programs : Fin 3 → LockProgram Mutex,
      (∀ t, Section.programOf 3 (![[.clientRequest 0 [1] 2, .migrateSend 0 1],
        [.addWorker none none 0 [(4, true)] true true false, .deleteQueue (some (0, 1))],
        [.checkTimeout [(0, [1])] false, .deleteConnections 2]] t) = some (programs t)) ∧
      ∀ order s, (Threads.start programs).run order = some s →
        order.length ≤ ∑ t, (programs t).size ∧
        ((∀ t, s.step t = none) →
          ((∀ t, s.rest t = .done) ∧ ∀ t lock, s.locks lock ≠ .heldBy t) ∨
          ∃ t lock, s.WaitsFor t lock ∧ s.locks lock = .lost ∧
            ∃ u, ∃ part ∈ ![[Section.clientRequest 0 [1] 2, .migrateSend 0 1],
              [.addWorker none none 0 [(4, true)] true true false, .deleteQueue (some (0, 1))],
              [.checkTimeout [(0, [1])] false, .deleteConnections 2]] u, lock ∈ part.leaves) :=
  only_left_mutexes_block (by decide) _

namespace Section

/-- A section under `autolock` is the whole of what is done between taking the
locks of the other loops and giving them back. -/
theorem underLock_program {threads loop : Nat} (few : threads ≤ 32) {part : Section} {body : LockProgram Mutex}
    (under : part.underLock = some (loop, body)) :
    ∃ l, autolock threads loop = some (l, otherLoops threads loop) ∧
      part.program threads = some (LockProgram.acquireAll ((otherLoops threads loop).map .delLock)
        (body.seq (LockProgram.releaseAll ((l.unlock threads).map .delLock) .done))) := by
  obtain ⟨l, locked, given⟩ := autolock_eq few loop
  refine ⟨l, locked, ?_⟩
  rw [given, ← Mutex.autolocked_eq few]
  cases part with
  | migrateSend own wakes =>
      cases under
      rfl
  | migrateRecv own requests =>
      cases under
      rfl
  | _ => cases under

/-- No section takes a `del_lock` while it has those of `autolock`. -/
theorem underLock_unnamed {loop n : Nat} {part : Section} {body : LockProgram Mutex}
    (under : part.underLock = some (loop, body)) : ¬ body.Names (.delLock n) := by
  cases part with
  | migrateSend own wakes =>
      cases under
      simp [Mutex.times, LockProgram.names_inTurn, LockProgram.Names]
  | migrateRecv own requests =>
      cases under
      simp [Mutex.clientRequest, Mutex.claim, Mutex.waitResponse, Mutex.times, LockProgram.names_inTurn,
        LockProgram.Names]
  | _ => cases under

end Section

/-- The thread is in a section under `autolock(loop)`: it is behind the last lock
and has given nothing back, whatever is left of the section. -/
def Inside {τ : Type} (threads loop : Nat) (s : Threads τ Mutex) (t : τ) : Prop :=
  ∃ (part : Section) (body left later : LockProgram Mutex) (l : Lock) (taken : List Nat),
    part.underLock = some (loop, body) ∧ autolock threads loop = some (l, taken) ∧ body.Onward left ∧
      s.rest t = left.seq (LockProgram.releaseAll ((l.unlock threads).map .delLock) later)

theorem Inside.holds {τ : Type} {threads loop n : Nat} {s : Threads τ Mutex} {t : τ}
    {programs : τ → LockProgram Mutex} (inside : Inside threads loop s t) (few : threads ≤ 32)
    (sound : Threads.Sound Mutex.rank programs s) (below : n < threads) (other : n ≠ loop) :
    s.locks (.delLock n) = .heldBy t := by
  obtain ⟨part, body, left, later, l, taken, under, locked, onward, isProgram⟩ := inside
  obtain ⟨l', locked', given⟩ := autolock_eq few loop
  rw [locked] at locked'
  cases locked'
  have orderly := sound.orderly t
  rw [isProgram, given] at orderly
  refine orderly.held_before (fun names => Section.underLock_unnamed under (onward.names names)) ?_
  intro held behind
  refine behind.holds (.delLock n) (List.mem_map.mpr ⟨n, ?_, rfl⟩)
  simp only [otherLoops, List.mem_filter, List.mem_range, decide_eq_true_eq]
  exact ⟨below, fun same => other (Int.ofNat.inj same)⟩

/-- What `_migrate_send` and `_migrate_recv` do stands between the locks of all
other loops; the sections of two loops exclude each other in every run, unless
these two are all the loops. -/
theorem autolock_excludes_iff {threads i j : Nat} (few : threads ≤ 32) (first : i < threads)
    (second : j < threads) (apart : i ≠ j) :
    (∀ (part : Section) (loop : Nat) (body : LockProgram Mutex), part.underLock = some (loop, body) →
      ∃ l, autolock threads loop = some (l, otherLoops threads loop) ∧
        part.program threads = some (LockProgram.acquireAll ((otherLoops threads loop).map .delLock)
          (body.seq (LockProgram.releaseAll ((l.unlock threads).map .delLock) .done)))) ∧
    ((∀ (τ : Type) [Fintype τ] [DecidableEq τ] (parts : τ → List Section) (programs : τ → LockProgram Mutex),
      (∀ t, Section.programOf threads (parts t) = some (programs t)) →
      ∀ order s, (Threads.start programs).run order = some s →
        ∀ t u, t ≠ u → ¬(Inside threads i s t ∧ Inside threads j s u)) ↔ threads ≠ 2) := by
  refine ⟨fun _ _ _ => Section.underLock_program few, ?_⟩
  constructor
  · rintro excludes rfl
    -- each of them takes the lock of the other
    have others : ∀ loop : Nat, loop < 2 → ∀ other : Nat, other < 2 → loop ≠ other →
        otherLoops 2 loop = [other] := by decide
    let loop : Bool → Nat := fun t => if t then i else j
    have only : ∀ t, otherLoops 2 (loop t) = [loop !t] := by
      intro t
      cases t with
      | true => exact others i first j second apart
      | false => exact others j second i first apart.symm
    let next : Bool → LockProgram Mutex := fun t => .release (.delLock (loop !t)) .done
    let programs : Bool → LockProgram Mutex := fun t => .acquire (.delLock (loop !t)) (next t)
    have isProgram : ∀ t, Section.programOf 2 [.migrateSend (loop t) 0] = some (programs t) := by
      intro t
      change ((Mutex.autolocked 2 (loop t) _).bind fun first => _) = _
      rw [Mutex.autolocked_eq few, only]
      rfl
    let s : Threads Bool Mutex :=
      ((Threads.start programs).put true (next true) (.delLock j) (.heldBy true)).put false (next false)
        (.delLock i) (.heldBy false)
    have ran : (Threads.start programs).run [true, false] = some s := by
      have free : Mutex.delLock i ≠ .delLock j := fun same => apart (Mutex.delLock.inj same)
      have one : (Threads.start programs).step true =
          some ((Threads.start programs).put true (next true) (.delLock j) (.heldBy true)) := rfl
      have two : ((Threads.start programs).put true (next true) (.delLock j) (.heldBy true)).step false =
          some s := by
        change (if Function.update (fun _ => LockState.free) (.delLock j) (.heldBy true) (Mutex.delLock i) =
          LockState.free then some s else none) = some s
        rw [Function.update_of_ne free, if_pos rfl]
      rw [Threads.run, one, Option.bind_some, Threads.run, two]
      rfl
    have inside : ∀ t, Inside 2 (loop t) s t := by
      intro t
      obtain ⟨l, locked, given⟩ := autolock_eq (show 2 ≤ 32 by decide) (loop t)
      refine ⟨.migrateSend (loop t) 0, .done, .done, .done, l, _, rfl, locked, .here .done, ?_⟩
      rw [given, only]
      cases t <;> rfl
    exact excludes Bool _ programs isProgram [true, false] s ran true false (by decide)
      ⟨inside true, inside false⟩
  · intro more τ _ _ parts programs isProgram order s ran t u different both
    have within : ∀ t, (programs t).Within Mutex.rank 0 := by
      intro t
      obtain ⟨program, isIt, within⟩ := Section.programOf_within few (parts t)
      rw [isProgram t] at isIt
      cases isIt
      exact within
    have sound : Threads.Sound Mutex.rank programs s := (Threads.start_sound within).run ran
    -- a third loop, whose lock both would hold
    obtain ⟨n, below, notFirst, notSecond⟩ : ∃ n < threads, n ≠ i ∧ n ≠ j := by
      by_contra all
      push Not at all
      have zero := all 0
      have one := all 1
      have two := all 2
      omega
    have mine := both.1.holds few sound below notFirst
    rw [both.2.holds few sound below notSecond] at mine
    exact different (LockState.heldBy.inj mine).symm

/-- On four loops: while the first is in such a section the last is not. -/
theorem autolock_excludes_iff_four :
    ∃ (programs : Bool → LockProgram Mutex) (s : Threads Bool Mutex),
      (∀ t, Section.programOf 4 [.migrateSend (if t then 0 else 3) 0] = some (programs t)) ∧
      (Threads.start programs).run [true, true, true] = some s ∧ Inside 4 0 s true ∧ ¬ Inside 4 3 s false := by
  let locks : Bool → List Mutex := fun t => (otherLoops 4 (if t then 0 else 3)).map .delLock
  let programs : Bool → LockProgram Mutex := fun t =>
    LockProgram.acquireAll (locks t) (LockProgram.releaseAll (locks t) .done)
  have isProgram : ∀ t, Section.programOf 4 [.migrateSend (if t then 0 else 3) 0] = some (programs t) := by
    intro t
    change ((Mutex.autolocked 4 (if t then 0 else 3) _).bind fun first => _) = _
    rw [Mutex.autolocked_eq (by decide)]
    cases t <;> rfl
  obtain ⟨s, ran, rest⟩ : ∃ s, (Threads.start programs).run [true, true, true] = some s ∧
      s.rest true = LockProgram.releaseAll (locks true) .done := ⟨_, rfl, rfl⟩
  have inside : Inside 4 0 s true := by
    obtain ⟨l, locked, given⟩ := autolock_eq (show 4 ≤ 32 by decide) 0
    refine ⟨.migrateSend 0 0, .done, .done, .done, l, _, rfl, locked, .here .done, ?_⟩
    rw [given, rest]
    rfl
  refine ⟨programs, s, isProgram, ran, inside, fun other => ?_⟩
  exact (autolock_excludes_iff (i := 0) (j := 3) (by decide) (by decide) (by decide) (by decide)).2.mpr (by decide)
    Bool (fun t => [.migrateSend (if t then 0 else 3) 0]) programs isProgram _ s ran true false (by decide)
    ⟨inside, other⟩

end Ijson
