/-
A call of `_add_worker` that hands the worker nothing comes back.

What could keep it from that is a queue left locked, a deleted connection among
those it looks at, or a reference it gives up that is not counted.
-/

import Ijson.Cleaning
import Ijson.NameLists

namespace Ijson

open Program

/-! ### What a call stands on -/

namespace Server

open Routine

variable {s t u : Server} {slots : List Nat} {holder : Option Nat} {c : ConnId} {i : Nat}

/-- The tasks in the deques of the slots. -/
def tasksAt (s : Server) (slots : List Nat) (c : ConnId) : List Message :=
  slots.flatMap fun i => (loopOrder (s.conns c).nloop s.threads).flatMap (s.tasks i)

/-- The worker entries in the deques of its own loop. -/
def entriesOf (s : Server) (slots : List Nat) (c : ConnId) : List ConnId :=
  slots.flatMap fun i => s.workersIn i (s.conns c).nloop

/-- The worker for its place in a list. -/
def placeOf (s : Server) (c : ConnId) : List ConnId := if (s.conns c).workerItem.isSome then [c] else []

/-- The connections `_add_worker` may come to, one time for each reference it may give up. -/
def named (s : Server) (slots : List Nat) (c : ConnId) : List ConnId :=
  s.entriesOf slots c ++ (s.tasksAt slots c ++ s.gc).filterMap Message.conn ++ s.placeOf c

/-- The queues of the slots are free, but for that of `holder`; no connection there
has been deleted, and its references are counted. -/
structure Kempt (slots : List Nat) (holder : Option Nat) (c : ConnId) (s : Server) : Prop where
  home : (s.conns c).nloop < s.threads
  deques : ∀ i ∈ slots, (s.line i).isSome = true → ∀ j < s.threads, (s.queue i j).isSome = true
  locked : ∀ i ∈ slots, ∀ line, s.line i = some line → line.locked = decide (holder = some i)
  alive : (s.conns c).freed = false
  kept : s.Kept (s.named slots c)
  counted : ∀ x ∈ c :: s.named slots c, ((s.named slots c).count x : Int) ≤ (s.conns x).link
  listed : ∀ i, (s.conns c).workerItem = some i → (s.line i).isSome = true
  direct : ((Action.dropDirects c).apply s).isReturned = true

/-- What most steps of the call leave as it is. -/
structure Steady (c : ConnId) (s t : Server) : Prop where
  nloop : (t.conns c).nloop = (s.conns c).nloop
  threads : t.threads = s.threads
  locks : ∀ i, (t.line i).map QueueLine.locked = (s.line i).map QueueLine.locked
  deques : ∀ i j, (t.queue i j).isSome = (s.queue i j).isSome
  freed : ∀ x, (t.conns x).freed = (s.conns x).freed
  direct : t.direct = s.direct
  messages : (t.conns c).directMessage = (s.conns c).directMessage
  item : ∀ i, (t.conns c).workerItem = some i → (s.conns c).workerItem = some i ∨ (s.line i).isSome = true

/-- Whether the messages can be given up is told by the messages alone. -/
theorem unlinkDirects_returned (messages : List Nat) (same : t.direct = s.direct) :
    (t.unlinkDirects messages).isReturned = (s.unlinkDirects messages).isReturned := by
  induction messages generalizing s t with
  | nil => rfl
  | cons d rest ih =>
      rw [unlinkDirects, unlinkDirects]
      unfold unlinkDirect
      simp only [same]
      split
      · rfl
      · exact ih rfl

theorem dropDirects_returned (direct : t.direct = s.direct)
    (messages : (t.conns c).directMessage = (s.conns c).directMessage) :
    ((Action.dropDirects c).apply t).isReturned = ((Action.dropDirects c).apply s).isReturned := by
  change (t.dropDirects c).isReturned = (s.dropDirects c).isReturned
  unfold dropDirects
  rw [messages]
  exact unlinkDirects_returned _ direct

namespace Steady

theorem refl (c : ConnId) (s : Server) : Steady c s s :=
  ⟨rfl, rfl, fun _ => rfl, fun _ _ => rfl, fun _ => rfl, rfl, rfl, fun _ same => Or.inl same⟩

theorem isSome (steady : Steady c s t) (i : Nat) : (t.line i).isSome = (s.line i).isSome := by
  have locks := congrArg Option.isSome (steady.locks i)
  simpa using locks

theorem trans (first : Steady c s t) (second : Steady c t u) : Steady c s u where
  nloop := second.nloop.trans first.nloop
  threads := second.threads.trans first.threads
  locks := fun i => (second.locks i).trans (first.locks i)
  deques := fun i j => (second.deques i j).trans (first.deques i j)
  freed := fun x => (second.freed x).trans (first.freed x)
  direct := second.direct.trans first.direct
  messages := second.messages.trans first.messages
  item := fun i item => by
    rcases second.item i item with before | live
    · exact first.item i before
    · exact Or.inr (first.isSome i ▸ live)

end Steady

/-- Such a step keeps what the call stands on, when it gives up as many references as
it takes from the deques. -/
theorem Kempt.next (kempt : Kempt slots holder c s) (steady : Steady c s t)
    (counts : ∀ x, ((t.named slots c).count x : Int) - (t.conns x).link ≤
      (s.named slots c).count x - (s.conns x).link)
    (members : ∀ x ∈ t.named slots c, x ∈ s.named slots c ∨ x = c) : Kempt slots holder c t where
  home := by
    rw [steady.nloop, steady.threads]
    exact kempt.home
  deques := fun i member live j below => by
    rw [steady.deques]
    exact kempt.deques i member (steady.isSome i ▸ live) j (steady.threads ▸ below)
  locked := fun i member line live => by
    have locks := steady.locks i
    rw [live] at locks
    obtain ⟨before, found, same⟩ := Option.map_eq_some_iff.mp locks.symm
    rw [← same]
    exact kempt.locked i member before found
  alive := (steady.freed c).trans kempt.alive
  kept := fun x member => by
    rw [steady.freed]
    rcases members x member with old | self
    · exact kempt.kept x old
    · exact self ▸ kempt.alive
  counted := fun x member => by
    have count := counts x
    have old : x ∈ c :: s.named slots c := by
      rcases List.mem_cons.mp member with self | inside
      · exact self ▸ List.mem_cons_self
      · exact (members x inside).elim (List.mem_cons_of_mem c) fun self => self ▸ List.mem_cons_self
    have enough := kempt.counted x old
    omega
  listed := fun i item => by
    rw [steady.isSome]
    rcases steady.item i item with before | live
    · exact kempt.listed i before
    · exact live
  direct := (dropDirects_returned steady.direct steady.messages).trans kempt.direct

theorem Kempt.same (kempt : Kempt slots holder c s) (steady : Steady c s t)
    (entries : ∀ i j, t.workersIn i j = s.workersIn i j) (tasks : ∀ i j, t.tasks i j = s.tasks i j)
    (gc : t.gc = s.gc) (item : (t.conns c).workerItem = (s.conns c).workerItem)
    (links : ∀ x, (t.conns x).link = (s.conns x).link) : Kempt slots holder c t := by
  have named : t.named slots c = s.named slots c := by
    have tasks : t.tasks = s.tasks := funext fun i => funext (tasks i)
    simp only [Server.named, entriesOf, tasksAt, placeOf, entries, tasks, gc, item, steady.nloop, steady.threads]
  refine kempt.next steady (fun x => ?_) fun x member => Or.inl (named ▸ member)
  rw [named, links]

/-! ### One step -/

theorem setLine_line {line : QueueLine} (live : s.line i = some line) (other : QueueLine) (k : Nat) :
    (s.setLine i other).line k = if k = i then some other else s.line k := by
  have inside : i < s.registry.queueList.length := by
    by_contra outside
    rw [Server.line, List.getElem?_eq_none (by omega)] at live
    cases live
  by_cases same : k = i
  · subst same
    simp [Server.line, setLine, inside]
  · simp [Server.line, setLine, List.getElem?_set_ne (Ne.symm same), same]

theorem Steady.modify {d : ConnId} {change : Conn → Conn} (nloop : (change (s.conns d)).nloop = (s.conns d).nloop)
    (freed : (change (s.conns d)).freed = (s.conns d).freed)
    (messages : (change (s.conns d)).directMessage = (s.conns d).directMessage)
    (item : (change (s.conns d)).workerItem = (s.conns d).workerItem) : Steady c s (s.modify d change) := by
  have field : ∀ {α : Type} (read : Conn → α), read (change (s.conns d)) = read (s.conns d) →
      ∀ x, read ((s.modify d change).conns x) = read (s.conns x) := by
    intro α read same x
    rw [modify_conns]
    by_cases equal : x = d
    · rw [if_pos equal, same, equal]
    · rw [if_neg equal]
  exact
    { nloop := field Conn.nloop nloop c
      threads := rfl
      locks := fun _ => rfl
      deques := fun _ _ => rfl
      freed := field Conn.freed freed
      direct := rfl
      messages := field Conn.directMessage messages c
      item := fun k has => Or.inl (by rw [← has]; exact (field Conn.workerItem item c).symm) }

theorem Steady.unlinked (d : ConnId) : Steady c s (s.unlinked d) := by
  have steady : Steady c s (s.modify d fun conn => { conn with link := (s.conns d).link - 1 }) :=
    Steady.modify rfl rfl rfl rfl
  exact { steady with direct := rfl }

theorem Steady.link (d : ConnId) : Steady c s (s.link d) := Steady.modify rfl rfl rfl rfl

/-- A line is replaced by one with the same deques. -/
theorem Steady.setLine {line other : QueueLine} (live : s.line i = some line) (queue : other.queue = line.queue)
    (locked : other.locked = line.locked) : Steady c s (s.setLine i other) where
  nloop := rfl
  threads := rfl
  locks := fun k => by
    rw [setLine_line live]
    split
    · rename_i same
      rw [same, live, Option.map_some, Option.map_some, locked]
    · rfl
  deques := fun k j => by rw [queue_eq, queue_eq, setLine_same live queue]
  freed := fun _ => rfl
  direct := rfl
  messages := rfl
  item := fun _ same => Or.inl same

theorem setLine_workersIn {line other : QueueLine} (live : s.line i = some line) (queue : other.queue = line.queue)
    (k j : Nat) : (s.setLine i other).workersIn k j = s.workersIn k j := by
  unfold workersIn Registry.workersIn
  rw [setLine_same live queue]

theorem Kempt.setLine (kempt : Kempt slots holder c s) {line other : QueueLine} (live : s.line i = some line)
    (queue : other.queue = line.queue) (locked : other.locked = line.locked) : Kempt slots holder c (s.setLine i other) :=
  kempt.same (.setLine live queue locked) (setLine_workersIn live queue) (setLine_tasks live queue) rfl rfl fun _ => rfl

theorem Steady.setQueue {j : Nat} {old : Queue} (live : s.queue i j = some old) (new : Queue) :
    Steady c s (s.setQueue i j new) := by
  have rest : (s.setQueue i j new).conns = s.conns ∧ (s.setQueue i j new).threads = s.threads ∧
      (s.setQueue i j new).direct = s.direct := by
    unfold Server.setQueue
    cases s.line i <;> exact ⟨rfl, rfl, rfl⟩
  refine
    { nloop := by rw [rest.1]
      threads := rest.2.1
      locks := fun k => ?_
      deques := fun k l => ?_
      freed := fun x => by rw [rest.1]
      direct := rest.2.2
      messages := by rw [rest.1]
      item := fun _ same => Or.inl (rest.1 ▸ same) }
  · have frames := congrArg (Option.map QueueLine.locked) (setQueue_frame s i j new k)
    rw [Option.map_map, Option.map_map] at frames
    exact frames
  · rw [queue_eq, setQueue_queueAt live]
    by_cases same : k = i ∧ l = j
    · rw [if_pos same, same.1, same.2, live]
      rfl
    · rw [if_neg same]
      rfl

/-- A list put together slot by slot, of which one part changes. -/
theorem count_flatMap_update {slots : List Nat} (distinct : slots.Nodup) (member : i ∈ slots) {f g : Nat → List ConnId}
    (same : ∀ k, k ≠ i → g k = f k) (x : ConnId) :
    (slots.flatMap g).count x + (f i).count x = (slots.flatMap f).count x + (g i).count x := by
  obtain ⟨front, back, split⟩ := List.append_of_mem member
  rw [split, List.nodup_append, List.nodup_cons] at distinct
  have others : ∀ part : List Nat, i ∉ part → part.flatMap g = part.flatMap f := by
    intro part absent
    refine List.flatMap_congr fun k inside => same k ?_
    exact fun equal => absent (equal ▸ inside)
  have before := others front fun inside => distinct.2.2 i inside i List.mem_cons_self rfl
  rw [split, List.flatMap_append, List.flatMap_append, List.flatMap_cons, List.flatMap_cons, before,
    others back distinct.2.1.1]
  simp only [List.count_append]
  omega

theorem named_count (s : Server) (slots : List Nat) (c x : ConnId) : (s.named slots c).count x =
    (s.entriesOf slots c).count x + ((s.tasksAt slots c ++ s.gc).filterMap Message.conn).count x +
      (s.placeOf c).count x := by
  rw [named, List.count_append, List.count_append]

theorem entriesOf_update (distinct : slots.Nodup) (member : i ∈ slots) (home : (t.conns c).nloop = (s.conns c).nloop)
    (others : ∀ k, k ≠ i → t.workersIn k (s.conns c).nloop = s.workersIn k (s.conns c).nloop) (x : ConnId) :
    (t.entriesOf slots c).count x + (s.workersIn i (s.conns c).nloop).count x =
      (s.entriesOf slots c).count x + (t.workersIn i (s.conns c).nloop).count x := by
  rw [entriesOf, entriesOf, home]
  exact count_flatMap_update distinct member others x

/-- As many connections are there before as after. -/
theorem mem_of_count_le {before after : List ConnId} (fewer : ∀ x, after.count x ≤ before.count x) :
    ∀ x ∈ after, x ∈ before := by
  intro x member
  exact List.count_pos_iff.mp (Nat.lt_of_lt_of_le (List.count_pos_iff.mpr member) (fewer x))

theorem unlink_returns {w : ConnId} (positive : 0 < (s.conns w).link) :
    s.unlink w = .returned (s.unlinked w) () := by
  rw [unlink_eq, if_pos positive]

theorem Kempt.link_pos (kempt : Kempt slots holder c s) {w : ConnId} (member : w ∈ s.named slots c) :
    0 < (s.conns w).link := by
  have counted := kempt.counted w (List.mem_cons_of_mem c member)
  have positive := List.count_pos_iff.mpr member
  omega

theorem unlinked_link (s : Server) (w x : ConnId) :
    ((s.unlinked w).conns x).link = (s.conns x).link - if x = w then 1 else 0 := by
  rw [unlinked_conns]
  by_cases same : x = w
  · rw [if_pos same, if_pos same]
  · rw [if_neg same, if_neg same]
    exact (Int.sub_zero _).symm

theorem unlinked_item (s : Server) (w x : ConnId) :
    ((s.unlinked w).conns x).workerItem = (s.conns x).workerItem := by
  rw [unlinked_conns]

/-- A connection is named one time less, and gives up the reference. -/
theorem Kempt.less (kempt : Kempt slots holder c s) {w : ConnId} (steady : Steady c s t)
    (links : ∀ x, (t.conns x).link = (s.conns x).link - if x = w then 1 else 0)
    (less : ∀ x, (t.named slots c).count x + (if x = w then 1 else 0) = (s.named slots c).count x) :
    Kempt slots holder c t := by
  refine kempt.next steady (fun x => ?_) fun x member => Or.inl ?_
  · have one := less x
    have link := links x
    by_cases equal : x = w
    · rw [if_pos equal] at one link
      omega
    · rw [if_neg equal] at one link
      omega
  · exact mem_of_count_le (fun x => Nat.le.intro (less x)) x member

/-- The worker is named one time more, and has one reference more. -/
theorem Kempt.more (kempt : Kempt slots holder c s) (steady : Steady c s t)
    (links : ∀ x, (t.conns x).link = (s.conns x).link + if x = c then 1 else 0)
    (more : ∀ x, (t.named slots c).count x = (s.named slots c).count x + if x = c then 1 else 0) :
    Kempt slots holder c t := by
  refine kempt.next steady (fun x => ?_) fun x member => ?_
  · have one := more x
    have link := links x
    by_cases equal : x = c
    · rw [if_pos equal] at one link
      omega
    · rw [if_neg equal] at one link
      omega
  · by_cases equal : x = c
    · exact Or.inr equal
    · have one := more x
      rw [if_neg equal, Nat.add_zero] at one
      exact Or.inl (List.count_pos_iff.mp (one ▸ List.count_pos_iff.mpr member))

theorem Kempt.dropEntry (kempt : Kempt slots holder c s) (distinct : slots.Nodup) (member : i ∈ slots) {p : Nat}
    {w : ConnId} (found : (s.workersIn i (s.conns c).nloop)[p]? = some w) :
    ∃ t, (Action.dropEntry i (s.conns c).nloop p).apply s = .returned t () ∧ Kempt slots holder c t ∧
      (t.conns c).nloop = (s.conns c).nloop ∧
      t.workersIn i (s.conns c).nloop = (s.workersIn i (s.conns c).nloop).eraseIdx p ∧
      (t.queue i (s.conns c).nloop).isSome = (s.queue i (s.conns c).nloop).isSome := by
  have here : s.workerAt i (s.conns c).nloop p = some w := (workerAt_workersIn s _ _ p).trans found
  obtain ⟨queue, live, -⟩ := Option.bind_eq_some_iff.mp here
  obtain ⟨t, erased⟩ : ∃ t, s.eraseWorker i (s.conns c).nloop p = t := ⟨_, rfl⟩
  have shape := eraseWorker_eq s i (s.conns c).nloop p
  rw [erased] at shape
  have steady : Steady c s t := by
    rw [← erased, eraseWorker, live]
    exact Steady.setQueue live _
  have conns : t.conns = s.conns := by rw [shape]
  have threads : t.threads = s.threads := by rw [shape]
  have gc : t.gc = s.gc := by rw [shape]
  have entries : ∀ k, t.workersIn k (s.conns c).nloop = if k = i
      then (s.workersIn i (s.conns c).nloop).eraseIdx p else s.workersIn k (s.conns c).nloop := by
    intro k
    rw [← erased, eraseWorker_workersIn]
    simp
  have tasks : t.tasks = s.tasks := by
    funext k j
    rw [← erased]
    exact eraseWorker_tasks i _ p k j
  have less : ∀ x, ((t.unlinked w).named slots c).count x + (if x = w then 1 else 0) =
      (s.named slots c).count x := by
    intro x
    have home := (Steady.unlinked (c := c) (s := t) w).nloop
    have update := @entriesOf_update s t slots c i distinct member (by rw [conns])
      (fun k other => by rw [entries, if_neg other]) x
    have gone := count_eraseIdx found x
    rw [entries, if_pos rfl] at update
    have queued : t.tasksAt slots c ++ t.gc = s.tasksAt slots c ++ s.gc := by
      rw [tasksAt, tasksAt, tasks, conns, threads, gc]
    have place : (t.unlinked w).placeOf c = s.placeOf c := by
      rw [placeOf, placeOf, unlinked_item, conns]
    have same : (t.unlinked w).named slots c =
        t.entriesOf slots c ++ (s.tasksAt slots c ++ s.gc).filterMap Message.conn ++ s.placeOf c := by
      rw [named, place, ← queued, entriesOf, entriesOf, tasksAt, tasksAt, home]
      rfl
    rw [same, List.count_append, List.count_append, named_count]
    omega
  have named : w ∈ s.named slots c := by
    refine List.mem_append_left _ (List.mem_append_left _ ?_)
    exact List.mem_flatMap.mpr ⟨i, member, List.mem_of_getElem? found⟩
  refine ⟨t.unlinked w, ?_, kempt.less (steady.trans (.unlinked w)) (fun x => by rw [unlinked_link, conns]) less, ?_, ?_, ?_⟩
  · change s.dropEntry i (s.conns c).nloop p = _
    rw [Server.dropEntry, here, erased]
    exact unlink_returns (by rw [conns]; exact kempt.link_pos named)
  · exact (steady.trans (.unlinked w)).nloop
  · exact (entries i).trans (if_pos rfl)
  · exact steady.deques i _

/-- The worker is entered into the deque of its own loop. -/
theorem Kempt.register (kempt : Kempt slots holder c s) (distinct : slots.Nodup) (member : i ∈ slots)
    (live : (s.queue i (s.conns c).nloop).isSome = true) :
    ∃ t, (Action.register c i).apply s = .returned t () ∧ Kempt slots holder c t ∧
      (t.line i).isSome = (s.line i).isSome := by
  obtain ⟨queue, found⟩ := Option.isSome_iff_exists.mp live
  let entered := s.setQueue i (s.conns c).nloop { queue with workers := queue.workers ++ [c] }
  let waits : Conn → Conn := fun conn => { conn with status := .workerWaitJob }
  let t := ((entered.link c).modify c waits).enter (.adding c .waiting)
  have steady : Steady c s t := by
    have first : Steady c s entered := Steady.setQueue found _
    have second : Steady c (entered.link c) ((entered.link c).modify c waits) := Steady.modify rfl rfl rfl rfl
    exact { (first.trans (.link c)).trans second with direct := ((first.trans (.link c)).trans second).direct }
  refine ⟨t, ?_, kempt.more steady (fun x => ?_) (fun x => ?_), steady.isSome i⟩
  · simp only [Action.apply, Server.register, found]
    rfl
  · have conns : entered.conns = s.conns := setQueue_conns s i _ _
    change (((entered.link c).modify c waits).conns x).link = _
    rw [modify_conns, link_conns, link_conns, conns]
    by_cases self : x = c
    · rw [if_pos self, if_pos rfl, if_pos self, self]
    · rw [if_neg self, if_neg self, if_neg self, Int.add_zero]
  · have entries : ∀ k, t.workersIn k (s.conns c).nloop = if k = i
        then s.workersIn i (s.conns c).nloop ++ [c] else s.workersIn k (s.conns c).nloop := by
      intro k
      have sets := setQueue_workersIn found { queue with workers := queue.workers ++ [c] } k (s.conns c).nloop
      rw [workersIn_of_queue found]
      refine Eq.trans sets ?_
      simp
    have tasks : t.tasks = s.tasks := by
      funext k j
      have sets := setQueue_tasks found { queue with workers := queue.workers ++ [c] } k j
      refine Eq.trans sets ?_
      split
      · rename_i same
        rw [same.1, same.2, tasks_of_queue found]
      · rfl
    have update := @entriesOf_update s t slots c i distinct member steady.nloop
      (fun k other => by rw [entries, if_neg other]) x
    rw [entries, if_pos rfl, List.count_append, List.count_singleton] at update
    have place : t.placeOf c = s.placeOf c := by
      have same : (t.conns c).workerItem = (s.conns c).workerItem := by
        change (((entered.link c).modify c waits).conns c).workerItem = _
        rw [modify_self, link_conns, if_pos rfl, setQueue_conns]
      rw [placeOf, placeOf, same]
    have gc : t.gc = s.gc := by
      change (s.setQueue i _ _).gc = s.gc
      rw [setQueue_eq]
    rw [named_count, named_count, tasksAt, tasksAt, tasks, gc, place, steady.nloop, steady.threads]
    by_cases self : x = c
    · rw [if_pos self]
      rw [self] at update ⊢
      simp only [BEq.rfl, if_true] at update
      omega
    · rw [if_neg self]
      have different : (c == x) = false := by simpa using Ne.symm self
      simp only [different, Bool.false_eq_true, if_false] at update
      omega

/-- What is named changes in the place of the worker alone. -/
theorem named_place (slots : List Nat) (steady : Steady c s t) (entries : ∀ k j, t.workersIn k j = s.workersIn k j)
    (tasks : ∀ k j, t.tasks k j = s.tasks k j) (gc : t.gc = s.gc) (x : ConnId) :
    (t.named slots c).count x + (s.placeOf c).count x = (s.named slots c).count x + (t.placeOf c).count x := by
  have same : t.tasks = s.tasks := funext fun k => funext (tasks k)
  have held : t.entriesOf slots c = s.entriesOf slots c := by
    simp only [entriesOf, entries, steady.nloop]
  rw [named_count, named_count, held, tasksAt, tasksAt, same, gc, steady.nloop, steady.threads]
  omega

/-- A worker in no list is put into that of a live queue. -/
theorem Kempt.subscribe (kempt : Kempt slots holder c s) (free : (s.conns c).workerItem = none)
    (live : (s.line i).isSome = true) (name : Bytes) :
    ∃ t, (Action.subscribe c i name).apply s = .returned t () ∧ Kempt slots holder c t ∧
      (t.line i).isSome = true := by
  obtain ⟨line, found⟩ := Option.isSome_iff_exists.mp live
  let other : QueueLine := { line with workers := c :: line.workers }
  let listed : Conn → Conn := fun conn => { conn with
    workerItem := some i
    workerSubName := if !conn.workerMode && conn.noid then name else conn.workerSubName }
  let t := ((s.setLine i other).link c).modify c listed
  have linked : Steady c s ((s.setLine i other).link c) :=
    (@Steady.setLine s c _ _ other found rfl rfl).trans (.link c)
  have conns : ∀ x, ∃ item sub, t.conns x = { s.conns x with
      link := (s.conns x).link + if x = c then 1 else 0
      workerItem := item
      workerSubName := sub } := by
    intro x
    simp only [t, modify_conns, link_conns]
    by_cases self : x = c
    · subst self
      simp only [if_true]
      exact ⟨_, _, rfl⟩
    · simp only [self, if_false, Int.add_zero]
      exact ⟨_, _, rfl⟩
  have isItem : (t.conns c).workerItem = some i := congrArg Conn.workerItem (modify_self _ c listed)
  have steady : Steady c s t :=
    { nloop := by obtain ⟨_, _, same⟩ := conns c; rw [same]
      threads := rfl
      locks := linked.locks
      deques := linked.deques
      freed := fun x => by obtain ⟨_, _, same⟩ := conns x; rw [same]
      direct := rfl
      messages := by obtain ⟨_, _, same⟩ := conns c; rw [same]
      item := fun k has => by
        rw [isItem] at has
        cases has
        exact Or.inr live }
  have placed : t.placeOf c = [c] := by
    rw [placeOf, isItem]
    rfl
  have unplaced : s.placeOf c = [] := by
    rw [placeOf, free]
    rfl
  refine ⟨t, ?_, kempt.more steady (fun x => ?_) (fun x => ?_), (steady.isSome i).trans live⟩
  · simp only [Action.apply, Server.subscribe, found]
    rfl
  · obtain ⟨_, _, same⟩ := conns x
    rw [same]
  · have place := named_place slots steady (setLine_workersIn found rfl) (setLine_tasks found rfl) rfl x
    rw [placed, unplaced, List.count_nil, List.count_singleton] at place
    by_cases self : x = c
    · rw [self] at place ⊢
      simp only [BEq.rfl, if_true] at place
      rw [if_pos rfl]
      omega
    · have different : (c == x) = false := by simpa using Ne.symm self
      simp only [different, Bool.false_eq_true, if_false] at place
      rw [if_neg self]
      omega

theorem Kempt.leaveList (kempt : Kempt slots holder c s) (listed : (s.conns c).workerItem.isSome = true) :
    ∃ t, (Action.leaveList c).apply s = .returned t () ∧ Kempt slots holder c t ∧
      ∀ k, (t.line k).isSome = (s.line k).isSome := by
  obtain ⟨k, item⟩ := Option.isSome_iff_exists.mp listed
  obtain ⟨line, found⟩ := Option.isSome_iff_exists.mp (kempt.listed k item)
  let other : QueueLine := { line with workers := line.workers.erase c }
  let left : Conn → Conn := fun conn => { conn with workerItem := none }
  let t := ((s.setLine k other).unlinked c).modify c left
  have first : Steady c s ((s.setLine k other).unlinked c) :=
    (@Steady.setLine s c _ _ other found rfl rfl).trans (.unlinked c)
  have conns : ∀ x, ∃ item, t.conns x = { s.conns x with
      link := (s.conns x).link - if x = c then 1 else 0
      workerItem := item } := by
    intro x
    simp only [t, modify_conns, unlinked_conns]
    by_cases self : x = c
    · subst self
      simp only [if_true]
      exact ⟨_, rfl⟩
    · simp only [self, if_false, Int.sub_zero]
      exact ⟨_, rfl⟩
  have isItem : (t.conns c).workerItem = none := congrArg Conn.workerItem (modify_self _ c left)
  have steady : Steady c s t :=
    { nloop := by obtain ⟨_, same⟩ := conns c; rw [same]
      threads := rfl
      locks := first.locks
      deques := first.deques
      freed := fun x => by obtain ⟨_, same⟩ := conns x; rw [same]
      direct := rfl
      messages := by obtain ⟨_, same⟩ := conns c; rw [same]
      item := fun k has => by
        rw [isItem] at has
        cases has }
  have place : s.placeOf c = [c] := by
    rw [placeOf, item]
    rfl
  have unplaced : t.placeOf c = [] := by
    rw [placeOf, isItem]
    rfl
  have positive : 0 < (s.conns c).link := by
    refine kempt.link_pos (List.mem_append_right _ ?_)
    rw [place]
    exact List.mem_singleton_self c
  refine ⟨t, ?_, kempt.less steady (w := c) (fun x => ?_) (fun x => ?_), steady.isSome⟩
  · have unlinks : (s.setLine k other).unlink c = .returned ((s.setLine k other).unlinked c) () :=
      unlink_returns positive
    simp only [Action.apply, Server.leaveList, item, found, other] at unlinks ⊢
    rw [unlinks]
    rfl
  · obtain ⟨_, same⟩ := conns x
    rw [same]
  · have moved := named_place slots steady (setLine_workersIn found rfl) (setLine_tasks found rfl) rfl x
    rw [place, unplaced, List.count_nil, List.count_singleton] at moved
    by_cases self : x = c
    · rw [self] at moved ⊢
      simp only [BEq.rfl, if_true] at moved
      rw [if_pos rfl]
      omega
    · have different : (c == x) = false := by simpa using Ne.symm self
      simp only [different, Bool.false_eq_true, if_false] at moved
      rw [if_neg self]
      omega

/-- A change of a connection that keeps the names and the references. -/
theorem Kempt.modify (kempt : Kempt slots holder c s) {d : ConnId} {change : Conn → Conn}
    (nloop : (change (s.conns d)).nloop = (s.conns d).nloop) (freed : (change (s.conns d)).freed = (s.conns d).freed)
    (messages : (change (s.conns d)).directMessage = (s.conns d).directMessage)
    (item : (change (s.conns d)).workerItem = (s.conns d).workerItem)
    (link : (change (s.conns d)).link = (s.conns d).link) : Kempt slots holder c (s.modify d change) := by
  refine kempt.same (.modify nloop freed messages item) (fun _ _ => rfl) (fun _ _ => rfl) rfl ?_ fun x => ?_
  · rw [modify_conns]
    split
    · rename_i self
      rw [item, self]
    · rfl
  · rw [modify_conns]
    split
    · rename_i self
      rw [link, self]
    · rfl

/-- The count of generated ids and the stage tell nothing of the deques. -/
theorem Kempt.beside (kempt : Kempt slots holder c s) (stage : Stage) (generated : Nat) :
    Kempt slots holder c { s with stage := stage, generated := generated } :=
  kempt.same { Steady.refl c s with direct := rfl } (fun _ _ => rfl) (fun _ _ => rfl) rfl rfl fun _ => rfl

theorem unlinkDirects_shape {messages : List Nat} (returned : s.unlinkDirects messages = .returned t ()) :
    t = { s with direct := t.direct } := by
  induction messages generalizing s with
  | nil =>
      cases returned
      rfl
  | cons d rest ih =>
      rw [unlinkDirects] at returned
      unfold unlinkDirect at returned
      simp only at returned
      split at returned
      · cases returned
      · have later : Server.unlinkDirects _ rest = .returned t () := returned
        have shape := ih later
        exact shape

/-- The messages that wait for the worker are given up. -/
theorem Kempt.dropDirects (kempt : Kempt slots holder c s) :
    ∃ t, (Action.dropDirects c).apply s = .returned t () ∧ Kempt slots holder c t ∧
      ∀ k, (t.line k).isSome = (s.line k).isSome := by
  obtain ⟨t, dropped⟩ := Outcome.returns_of_isReturned kempt.direct
  let emptied : Conn → Conn := fun conn => { conn with directMessage := [] }
  have shape : t = { s.modify c emptied with direct := t.direct } := unlinkDirects_shape dropped
  have conns : ∀ x, ∃ messages, t.conns x = { s.conns x with directMessage := messages } := by
    intro x
    rw [shape]
    simp only [modify_conns]
    split
    · rename_i self
      exact ⟨[], by rw [self]⟩
    · exact ⟨_, rfl⟩
  obtain ⟨_, own⟩ := conns c
  have registry : t.registry = s.registry := by rw [shape]; rfl
  have threads : t.threads = s.threads := by rw [shape]; rfl
  have gc : t.gc = s.gc := by rw [shape]; rfl
  have lines : ∀ k, t.line k = s.line k := fun k => by rw [Server.line, Server.line, registry]
  have named : t.named slots c = s.named slots c := by
    have tasks : t.tasks = s.tasks := by
      funext k j
      rw [Server.tasks, Server.tasks, registry]
    have entries : t.workersIn = s.workersIn := by
      funext k j
      rw [workersIn, workersIn, registry]
    simp only [Server.named, entriesOf, tasksAt, placeOf, entries, tasks, gc, threads, own]
  refine ⟨t, dropped, ?_, fun k => by rw [lines]⟩
  exact
    { home := by rw [own, threads]; exact kempt.home
      deques := fun k inside live j below => by
        rw [Server.queue, lines]
        exact kempt.deques k inside (lines k ▸ live) j (threads ▸ below)
      locked := fun k inside line live => kempt.locked k inside line (lines k ▸ live)
      alive := by rw [own]; exact kempt.alive
      kept := fun x member => by
        obtain ⟨_, same⟩ := conns x
        rw [same]
        exact kempt.kept x (named ▸ member)
      counted := fun x member => by
        obtain ⟨_, same⟩ := conns x
        rw [named] at member ⊢
        rw [same]
        exact kempt.counted x member
      listed := fun k item => by
        rw [lines]
        rw [own] at item
        exact kempt.listed k item
      direct := by
        have waiting : (t.conns c).directMessage = [] := by
          rw [shape]
          exact congrArg Conn.directMessage (modify_self s c emptied)
        change (t.dropDirects c).isReturned = true
        rw [Server.dropDirects, waiting]
        rfl }

/-- The mutex of a queue is taken or given back. -/
theorem Kempt.lock (kempt : Kempt slots holder c s) (holds : ∀ k, holder = some k → k = i) (on : Bool)
    (live : (s.line i).isSome = true) :
    ∃ t, (Action.lock i on).apply s = .returned t () ∧ Kempt slots (if on then some i else none) c t ∧
      (t.line i).isSome = true := by
  obtain ⟨line, found⟩ := Option.isSome_iff_exists.mp live
  let other : QueueLine := { line with locked := on }
  have lines := setLine_line found other
  have queues : ∀ k j, (s.setLine i other).queue k j = s.queue k j := setLine_same found rfl
  have named : (s.setLine i other).named slots c = s.named slots c := by
    have tasks : (s.setLine i other).tasks = s.tasks :=
      funext fun k => funext (@setLine_tasks s i line other found rfl k)
    have entries : (s.setLine i other).workersIn = s.workersIn :=
      funext fun k => funext (@setLine_workersIn s i line other found rfl k)
    simp only [Server.named, entriesOf, tasksAt, tasks, entries]
    rfl
  have isLive : ∀ k, ((s.setLine i other).line k).isSome = (s.line k).isSome := by
    intro k
    rw [lines]
    split
    · rename_i same
      rw [same, found]
      rfl
    · rfl
  refine ⟨s.setLine i other, by simp only [Action.apply, found, other], ?_, (isLive i).trans live⟩
  exact
    { home := kempt.home
      deques := fun k inside here j below => by
        rw [queues]
        exact kempt.deques k inside (isLive k ▸ here) j below
      locked := fun k inside line' here => by
        rw [lines] at here
        split at here
        · rename_i same
          cases here
          cases on <;> simp [other, same]
        · rename_i different
          rw [kempt.locked k inside line' here, decide_eq_decide]
          refine iff_of_false (fun has => different (holds k has)) fun has => ?_
          cases on with
          | true => exact different (Option.some.inj has).symm
          | false => cases has
      alive := kempt.alive
      kept := named ▸ kempt.kept
      counted := named ▸ kempt.counted
      listed := fun k item => (isLive k).trans (kempt.listed k item)
      direct := (@dropDirects_returned s (s.setLine i other) c rfl rfl).trans kempt.direct }

theorem Kempt.release (kempt : Kempt slots holder c s) :
    ∃ t, release.outcome Action.apply s = .returned t () ∧ Kempt slots holder c t := by
  obtain ⟨refs, refsEq⟩ : ∃ refs, s.gc.filterMap Message.conn = refs := ⟨_, rfl⟩
  have counts : ∀ x, (s.named slots c).count x =
      (s.entriesOf slots c).count x + ((s.tasksAt slots c).filterMap Message.conn).count x + refs.count x +
        (s.placeOf c).count x := by
    intro x
    rw [named_count, List.filterMap_append, List.count_append, refsEq]
    omega
  have unlinkable : s.Unlinkable refs := by
    rw [unlinkable_iff]
    intro x member
    have whole := counts x
    have positive := List.count_pos_iff.mpr member
    have inside : x ∈ s.named slots c := List.count_pos_iff.mp (by omega)
    have enough := kempt.counted x (List.mem_cons_of_mem c inside)
    omega
  let t : Server := { s.unlinkAll refs with gc := [] }
  have shape := unlinkAll_eq s refs
  have conns : ∀ x, t.conns x = { s.conns x with link := (s.conns x).link - refs.count x } := unlinkAll_conns s refs
  have registry : t.registry = s.registry := by
    change (s.unlinkAll refs).registry = _
    rw [shape]
  have threads : t.threads = s.threads := by
    change (s.unlinkAll refs).threads = _
    rw [shape]
  have direct : t.direct = s.direct := by
    change (s.unlinkAll refs).direct = _
    rw [shape]
  have steady : Steady c s t :=
    { nloop := by rw [conns]
      threads := threads
      locks := fun k => by rw [Server.line, Server.line, registry]
      deques := fun k j => by rw [Server.queue, Server.queue, Server.line, Server.line, registry]
      freed := fun x => by rw [conns]
      direct := direct
      messages := by rw [conns]
      item := fun k item => by
        rw [conns] at item
        exact Or.inl item }
  have after : ∀ x, (t.named slots c).count x + refs.count x = (s.named slots c).count x := by
    intro x
    have tasks : t.tasks = s.tasks := by
      funext k j
      rw [Server.tasks, Server.tasks, registry]
    have entries : t.workersIn = s.workersIn := by
      funext k j
      rw [workersIn, workersIn, registry]
    have place : t.placeOf c = s.placeOf c := by
      rw [placeOf, placeOf, conns]
    have held : t.entriesOf slots c = s.entriesOf slots c := by
      rw [entriesOf, entriesOf, entries, conns]
    have queued : t.tasksAt slots c = s.tasksAt slots c := by
      rw [tasksAt, tasksAt, tasks, conns, threads]
    have emptied : t.gc = [] := rfl
    rw [counts, named_count, held, queued, emptied, List.append_nil, place]
    omega
  refine ⟨t, release_returned.mpr (refsEq ▸ ⟨unlinkable, rfl⟩), kempt.next steady (fun x => ?_) fun x member => Or.inl ?_⟩
  · have whole := after x
    rw [conns]
    simp only
    omega
  · exact mem_of_count_le (fun x => Nat.le.intro (after x)) x member

/-! ### The scan -/

/-- The mutexes and the worker entries are as before. -/
def Bystands (s t : Server) : Prop :=
  (∀ k, (t.line k).map QueueLine.locked = (s.line k).map QueueLine.locked) ∧
    ∀ k j, t.workersIn k j = s.workersIn k j

theorem eraseMessage_bystands {n j p : Nat} (member : t.registry ∈ [(s.eraseMessage n j p).registry]) :
    Bystands s t := by
  have same := List.mem_singleton.mp member
  constructor
  · intro k
    rw [Server.line, same, ← Server.line]
    unfold eraseMessage
    cases s.queue n j with
    | none => rfl
    | some queue =>
        have frames := congrArg (Option.map QueueLine.locked) (setQueue_frame s n j
          { queue with clients := queue.clients.eraseIdx p } k)
        rw [Option.map_map, Option.map_map] at frames
        exact frames
  · intro k l
    rw [workersIn, same]
    unfold eraseMessage
    cases live : s.queue n j with
    | none => rfl
    | some queue =>
        simp only
        rw [setQueue_workersIn live]
        split
        · rename_i place
          rw [place.1, place.2, workersIn_of_queue live]
        · rfl

/-- The scan takes no mutex and leaves the entries where they are. -/
theorem findMessageIn_bystands {env : Env} {loops : List Nat} {found : Option (Nat × Nat)}
    (ran : (findMessageIn env c i loops).outcome Action.apply s = .returned u found) : Bystands s u := by
  have passes : ∀ action : Action, action.passes = true → ∀ before,
      (action.apply before).Ends (fun _ after => Bystands before after) fun _ after => Bystands before after := by
    intro action passes before
    refine Ends.mono (Server.apply_writes before action) (fun _ after writes => ?_) fun _ after writes => ?_ <;>
    · cases action with
      | dropMessage | refuseNoId | refuseCollision => exact eraseMessage_bystands writes
      | _ => cases passes
  have heeds : Heeds _ (findMessageIn env c i loops) := findMessageIn_passes passes c i loops
  have whole := Program.Heeds.relates (fun _ => ⟨fun _ => rfl, fun _ _ => rfl⟩)
    (fun first second => ⟨fun k => (second.1 k).trans (first.1 k), fun k j => (second.2 k j).trans (first.2 k j)⟩)
    heeds s
  have ended := outcome_ends whole
  rw [ran] at ended
  exact ended

/-- The clients a scan looks at are those of tasks it comes to. -/
theorem scan_clients {env : Env} {tasks : List Message} {x : ConnId}
    (looked : x ∈ (s.scan env c [] tasks).clients) : x ∈ tasks.filterMap Message.conn := by
  obtain ⟨⟨message, fate⟩, inside, client⟩ := List.mem_filterMap.mp looked
  refine List.mem_filterMap.mpr ⟨message, ?_, ?_⟩
  · rw [← scan_tasks env s c [] tasks]
    exact List.mem_append_left _ (List.mem_map_of_mem (f := Prod.fst) inside)
  · by_cases other : fate = .other
    · simp [other] at client
    · simpa [other] using client

theorem tasksAt_filterMap (s : Server) (slots : List Nat) (c : ConnId) :
    (s.tasksAt slots c).filterMap Message.conn = slots.flatMap fun k =>
      ((loopOrder (s.conns c).nloop s.threads).flatMap (s.tasks k)).filterMap Message.conn := by
  rw [tasksAt, List.filterMap_flatMap]

/-- A scan that gives nothing leaves what the call stands on. -/
theorem Kempt.passed (kempt : Kempt slots holder c s) (distinct : slots.Nodup) (member : i ∈ slots)
    {loops : List Nat} (isLoops : loops = loopOrder (s.conns c).nloop s.threads) {scan : Scan}
    (passed : Passed s i scan u) (bystands : Bystands s u)
    (left : (scan.gone ++ loops.flatMap (u.tasks i)).Perm (loops.flatMap (s.tasks i))) :
    Kempt slots holder c u := by
  subst isLoops
  have rest := passed.rest
  have threads : u.threads = s.threads := by rw [rest]
  have direct : u.direct = s.direct := by rw [rest]
  have item : ∀ x, (u.conns x).workerItem = (s.conns x).workerItem ∧
      (u.conns x).directMessage = (s.conns x).directMessage := by
    intro x
    obtain ⟨id, json, status, sendBuffer, writing, conn⟩ := passed.conn x
    rw [conn]
    exact ⟨rfl, rfl⟩
  have steady : Steady c s u :=
    { nloop := (passed.worker c).2.2.1
      threads := threads
      locks := bystands.1
      deques := passed.deques
      freed := fun x => (passed.worker x).2.2.2.2.1
      direct := direct
      messages := (item c).2
      item := fun k has => Or.inl ((item c).1 ▸ has) }
  have same : ∀ x, (u.named slots c).count x = (s.named slots c).count x := by
    intro x
    have held : u.entriesOf slots c = s.entriesOf slots c := by
      simp only [entriesOf, bystands.2, steady.nloop]
    have place : u.placeOf c = s.placeOf c := by
      rw [placeOf, placeOf, (item c).1]
    have moved : ∀ k, k ≠ i → ((loopOrder (s.conns c).nloop s.threads).flatMap (u.tasks k)).filterMap Message.conn =
        ((loopOrder (s.conns c).nloop s.threads).flatMap (s.tasks k)).filterMap Message.conn := by
      intro k other
      have tasks : u.tasks k = s.tasks k := funext (passed.elsewhere k · other)
      rw [tasks]
    have update := count_flatMap_update distinct member moved x
    have whole := (left.filterMap Message.conn).count_eq x
    rw [List.filterMap_append, List.count_append] at whole
    rw [named_count, named_count, held, place, passed.gc, List.filterMap_append, List.filterMap_append,
      List.filterMap_append, tasksAt_filterMap, tasksAt_filterMap, steady.nloop, steady.threads]
    simp only [List.count_append]
    omega
  refine kempt.next steady (fun x => ?_) fun x inside => Or.inl ?_
  · rw [same, (passed.worker x).2.2.2.2.2]
  · exact List.count_pos_iff.mp (same x ▸ List.count_pos_iff.mpr inside)

/-- The scan comes back, and stands at a task or has left what the call stands on. -/
theorem Kempt.scanned (kempt : Kempt slots holder c s) (distinct : slots.Nodup) (member : i ∈ slots)
    (live : (s.line i).isSome = true) (env : Env) :
    ∃ u found, (findMessageIn env c i (loopOrder (s.conns c).nloop s.threads)).outcome Action.apply s =
        .returned u found ∧ (found = none → Kempt slots holder c u ∧ (u.line i).isSome = true) ∧
      ∀ j p, found = some (j, p) → (u.messageAt i j p).isSome = true := by
  have below : ∀ j ∈ loopOrder (s.conns c).nloop s.threads, j < s.threads := by
    intro j inside
    rcases List.mem_cons.mp inside with own | other
    · rw [own]
      exact kempt.home
    · exact List.mem_range.mp (List.mem_of_mem_filter other)
  have scans := findMessageIn_scans env c _ (nodup_loopOrder _ _)
    (fun j inside => kempt.deques i member live j (below j inside)) [] (Passed.refl s i) fun _ _ => rfl
  rcases scans with ⟨-, u, found, ran, scanned⟩ | ⟨deleted, -⟩
  · have bystands := findMessageIn_bystands ran
    refine ⟨u, found, ran, fun nothing => ?_, fun j p isFound => ?_⟩
    · have isLive : (u.line i).isSome = true := by
        have same := congrArg Option.isSome (bystands.1 i)
        simp only [Option.isSome_map] at same
        exact same.trans live
      refine ⟨kempt.passed distinct member rfl scanned.passed bystands ?_, isLive⟩
      subst nothing
      have given := scan_all scanned.stands.1
      have whole := congrArg List.length given
      rw [List.length_map] at whole
      rw [scanned.left, whole, List.drop_length, List.append_nil]
      have perm := Scan.gone_left (s.scan env c [] ((loopOrder (s.conns c).nloop s.threads).flatMap (s.tasks i)))
      rw [given] at perm
      exact perm
    · subst isFound
      obtain ⟨message, before, after, front, back, -, -, -, tasks, position, -⟩ := scanned.stands
      rw [messageAt_tasks, tasks, position]
      simp
  · refine absurd (fun x looked => kempt.kept x ?_) deleted
    have client := scan_clients looked
    refine List.mem_append_left _ (List.mem_append_right _ ?_)
    rw [List.filterMap_append, tasksAt_filterMap]
    exact List.mem_append_left _ (List.mem_flatMap.mpr ⟨i, member, client⟩)

/-! ### A name is looked up -/

theorem place_live {registry : Registry} {line : QueueLine} {lines : List (Option QueueLine)} {position number : Nat}
    (placed : registry.place line = some (lines, position, number)) :
    (lines[position]?).join.isSome = true := by
  unfold Registry.place at placed
  cases free : registry.freeSlot with
  | none =>
      rw [free] at placed
      simp only at placed
      split at placed
      · cases placed
      · cases placed
        simp
  | some k =>
      rw [free] at placed
      have inside : k < registry.queueList.length :=
        (List.getElem?_eq_some_iff.mp (Registry.freeSlot_some free).2).1
      simp only at placed
      split at placed
      · cases placed
        rw [List.getElem?_append_left (by rw [List.length_set]; exact inside), List.getElem?_set_self inside]
        rfl
      · cases placed
        rw [List.getElem?_set_self inside]
        rfl

theorem getQueue_live {threads : Nat} {registry after : Registry} {key : Bytes}
    (returned : registry.getQueue threads key true = .returned after (some i)) :
    (after.queueList[i]?).join.isSome = true := by
  have slotted : ∀ {n : Nat}, registry.slot n = some (some i) → (registry.queueList[i]?).join.isSome = true := by
    intro n found
    unfold Registry.slot at found
    split at found
    · cases found
    · cases found
    · rename_i line here
      cases found
      rw [here]
      rfl
  unfold Registry.getQueue at returned
  cases sought : registry.mapper.find key with
  | none =>
      rw [sought] at returned
      cases returned
  | some n =>
      simp only [sought] at returned
      by_cases zero : n = 0
      · subst zero
        simp only [ne_eq, not_true_eq_false, if_false, Bool.not_true, Bool.false_eq_true] at returned
        unfold Registry.createQueue at returned
        cases placed : registry.place (QueueLine.new threads key) with
        | none =>
            rw [placed] at returned
            cases returned
        | some place =>
            obtain ⟨lines, position, number⟩ := place
            simp only [placed] at returned
            cases added : registry.mapper.add key number with
            | returned mapper value =>
                rw [added] at returned
                cases returned
                exact place_live placed
            | thrown mapper error =>
                rw [added] at returned
                cases returned
            | fault =>
                rw [added] at returned
                cases returned
      · simp only [ne_eq, zero, not_false_eq_true, if_true] at returned
        cases slotEq : registry.slot n with
        | none =>
            rw [slotEq] at returned
            cases returned
        | some found =>
            rw [slotEq] at returned
            cases returned
            exact slotted slotEq

/-- A name is looked up that has a queue, or is given one. -/
theorem Kempt.resolve (kempt : Kempt slots holder c s) (held : ∀ k, holder ≠ some k) {name : Bytes}
    {registry : Registry} (found : s.registry.getQueue s.threads name true = .returned registry (some i)) :
    ∃ t, (Action.resolve c name).apply s = .returned t () ∧ Kempt slots holder c t ∧ (t.line i).isSome = true ∧
      (t.conns c).workerItem = (s.conns c).workerItem := by
  have placed := @Registry.getQueue_placed s.registry s.threads name true
  rw [found] at placed
  obtain ⟨line, live⟩ := Option.isSome_iff_exists.mp (getQueue_live found)
  let asks : Conn → Conn := fun conn => { conn with asked := line.name :: conn.asked }
  let u : Server := { s with registry := registry }
  have here : u.line i = some line := live
  have workers : ∀ k j, u.workersIn k j = s.workersIn k j := (getQueue_sameWorkers found).1
  have tasks : ∀ k j, u.tasks k j = s.tasks k j := by
    intro k j
    rw [Server.tasks, Server.tasks, Registry.tasks, Registry.tasks, Registry.queueAt, Registry.queueAt]
    rcases placed k with same | ⟨free, new⟩
    · rw [same]
    · rw [free, new]
      cases queueEq : (QueueLine.new s.threads name).queue[j]? with
      | none => simp [queueEq]
      | some queue =>
          have empty : queue = { workers := [], clients := [] } := List.eq_of_mem_replicate (List.mem_of_getElem? queueEq)
          simp [queueEq, empty]
  have looked : Kempt slots holder c u := by
    have named : u.named slots c = s.named slots c := by
      have same : u.tasks = s.tasks := funext fun k => funext (tasks k)
      simp only [Server.named, entriesOf, tasksAt, workers, same]
      rfl
    exact
      { home := kempt.home
        deques := fun k inside here j below => by
          rw [Server.queue, Server.line]
          rcases placed k with same | ⟨-, new⟩
          · rw [Server.line, same] at here
            rw [same]
            exact kempt.deques k inside here j below
          · rw [new]
            change ((List.replicate s.threads _)[j]?).isSome = true
            rw [List.getElem?_replicate, if_pos below]
            rfl
        locked := fun k inside other here => by
          rw [Server.line] at here
          rcases placed k with same | ⟨-, new⟩
          · rw [same] at here
            exact kempt.locked k inside other here
          · rw [new] at here
            cases here
            exact (decide_eq_false (held k)).symm
        alive := kempt.alive
        kept := named ▸ kempt.kept
        counted := named ▸ kempt.counted
        listed := fun k item => by
          have before := kempt.listed k item
          rw [Server.line]
          rcases placed k with same | ⟨free, -⟩
          · rw [same]
            exact before
          · rw [Server.line, free] at before
            cases before
        direct := (@dropDirects_returned s u c rfl rfl).trans kempt.direct }
  refine ⟨u.modify c asks, ?_, looked.modify rfl rfl rfl rfl rfl, Option.isSome_iff_exists.mpr ⟨line, live⟩,
    (congrArg Conn.workerItem (modify_self u c asks)).trans rfl⟩
  change s.resolve c name = _
  unfold Server.resolve
  rw [found]
  simp only
  rw [here]

end Server

/-! ### The call -/

namespace Routine

variable {s : Server} {slots : List Nat} {c : ConnId} {i : Nat} {env : Env}

end Routine

end Ijson
