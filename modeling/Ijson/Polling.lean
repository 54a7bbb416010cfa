/-
The rounds of the event loops, and what the kernel watches for them.

`write_mode` only notes in `_socket_status` what a connection wants and puts it
into `_queue_to_send`; the loop passes it on at the end of its round.  What epoll
was asked for last is in `_socket_status_active`.  The loops take their steps in
any order, and a connection may be written to from the code of any of them, also
while its loop goes through that queue, which it clears at the end.
-/

import Mathlib.Data.List.Nodup
import Mathlib.Data.List.Basic
import Mathlib.Logic.Function.Basic
import Ijson.Program
import Ijson.QueueLine

namespace Ijson

/-- What epoll reports of a descriptor: `EPOLLIN`, `EPOLLOUT`. -/
structure Interest where
  reading : Bool
  writing : Bool
  deriving DecidableEq

/-- The events `set_poll_mode` asks for. -/
def Interest.of (status : BitVec 32) : Interest :=
  { reading := status &&& 1 ≠ 0
    writing := status &&& 2 ≠ 0 }

/-- The members of `Connect` the loops look at; `loop` is the loop `nloop`. -/
structure Socket where
  fd : Nat
  status : BitVec 32
  active : BitVec 32
  nloop : Nat
  needLoop : Nat
  goLoop : Bool
  freed : Bool

/-- How far a loop is: at its events, behind the `close()` of a connection, behind
the `_switch_mode` of `_close`, in the `for` of `_perform_to_send`, behind it, or in
the `for` of `_delete_connections`; such a `for` goes over `count` elements, those
that are in the vector when it begins, and `done` are behind it. -/
inductive Round where
  | events
  | closing (fd : Nat)
  | leaving (fd : Nat)
  | passing (count done : Nat)
  | sent
  | deleting (count done : Nat)
  deriving DecidableEq

namespace Round

def passed : Round → Nat
  | passing _ done => done
  | _ => 0

def deleted : Round → Nat
  | deleting _ done => done
  | _ => 0

/-- In one of the two halves of `_close`. -/
def closes : Round → Bool
  | closing _ => true
  | leaving _ => true
  | _ => false

/-- Behind `_perform_to_send`. -/
def late : Round → Bool
  | sent => true
  | deleting _ _ => true
  | _ => false

end Round

/-- `watched` are the interest lists of the kernel and `opened` its descriptors.
`missed` is not of the source: it notes whose wish was in a queue when that was
cleared, and had not been passed on. -/
structure Polling where
  threads : Nat
  connections : Nat → Option ConnId
  maxFd : Nat
  accepted : Nat
  sockets : ConnId → Socket
  toSend : Nat → List ConnId
  dead : Nat → List ConnId
  round : Nat → Round
  opened : Nat → Bool
  watched : Nat → Nat → Option Interest
  missed : List ConnId

/-- `MAX_CONNECTS`. -/
def maxConnects : Nat := 16384

namespace Polling

/-- The outcome of a step. -/
abbrev Ended := Outcome Polling Exc Unit

def new (threads : Nat) : Polling :=
  { threads := threads
    connections := fun _ => none
    maxFd := 0
    accepted := 0
    sockets := fun _ => ⟨0, -1, -1, 0, 0, false, true⟩
    toSend := fun _ => []
    dead := fun _ => []
    round := fun _ => .events
    opened := fun _ => false
    watched := fun _ _ => none
    missed := [] }

def modify (p : Polling) (c : ConnId) (change : Socket → Socket) : Polling :=
  { p with sockets := Function.update p.sockets c (change (p.sockets c)) }

def goOn (p : Polling) (j : Nat) (round : Round) : Polling :=
  { p with round := Function.update p.round j round }

def watch (p : Polling) (j fd : Nat) (interest : Option Interest) : Polling :=
  { p with watched := Function.update p.watched j (Function.update (p.watched j) fd interest) }

theorem watch_watched (p : Polling) (j fd : Nat) (interest : Option Interest) (i place : Nat) :
    (p.watch j fd interest).watched i place =
      if i = j ∧ place = fd then interest else p.watched i place := by
  change Function.update p.watched j _ i place = _
  by_cases same : i = j
  · rw [same, Function.update_self, Function.update_apply]
    simp
  · rw [Function.update_of_ne same, if_neg fun both => same both.1]

/-- `Loop::set_poll_mode`. -/
def setPollMode (p : Polling) (j fd : Nat) (status : BitVec 32) : Ended :=
  if status = -1 then
    if (p.watched j fd).isSome then .returned (p.watch j fd none) ()
    else .thrown p (.exception "epoll_ctl EPOLL_CTL_DEL")
  else if (p.watched j fd).isSome then .returned (p.watch j fd (some (Interest.of status))) ()
  else .thrown p (.exception "epoll_ctl EPOLL_CTL_MOD")

/-- The connection notes what it wants and joins the queue of its loop. -/
def pushed (p : Polling) (c : ConnId) (status : BitVec 32) : Polling :=
  { p.modify c fun socket => { socket with status := status } with
    toSend := Function.update p.toSend (p.sockets c).nloop (p.toSend (p.sockets c).nloop ++ [c]) }

/-- `Connect::write_mode`. -/
def writeMode (p : Polling) (c : ConnId) (active : Bool) : Ended :=
  let socket := p.sockets c
  if socket.freed then .fault
  else if active then
    if socket.status &&& 2 ≠ 0 then .returned p () else .returned (p.pushed c (socket.status ||| 2)) ()
  else if socket.status &&& 2 = 0 then .returned p ()
  else .returned (p.pushed c (socket.status &&& 0xfd)) ()

/-- `Connect::_switch_mode`. -/
def switchMode (p : Polling) (c : ConnId) : Ended :=
  let socket := p.sockets c
  if socket.freed then .fault
  else if socket.status = socket.active then .returned p ()
  else
    (p.setPollMode socket.nloop socket.fd socket.status).bind fun p _ =>
      .returned (p.modify c fun socket => { socket with active := socket.status }) ()

/-- `Loop::_perform_to_send` up to its `for`. -/
def performToSend (p : Polling) (j : Nat) : Polling :=
  if (p.toSend j).isEmpty then p.goOn j .sent else p.goOn j (.passing (p.toSend j).length 0)

/-- One turn of that `for`. -/
def passOn (p : Polling) (j : Nat) : Ended :=
  match p.round j with
  | .passing count done =>
      match (p.toSend j)[done]? with
      | none => .fault
      | some c => (p.switchMode c).bind fun p _ => .returned (p.goOn j (.passing count (done + 1))) ()
  | _ => .returned p ()

/-- What was put into the queue behind the elements the `for` goes over, and still
is not what epoll was asked for. -/
def unheard (p : Polling) (j count : Nat) : List ConnId :=
  ((p.toSend j).drop count).filter fun c => (p.sockets c).status != (p.sockets c).active

/-- The `clear()` behind it. -/
def clearToSend (p : Polling) (j : Nat) : Polling :=
  match p.round j with
  | .passing count _ =>
      { p with
        toSend := Function.update p.toSend j []
        missed := p.missed ++ p.unheard j count }.goOn j .sent
  | _ => p

/-- `Loop::accept`. -/
def acceptAt (p : Polling) (j : Nat) (c : ConnId) : Ended :=
  let p := p.modify c fun socket => { socket with nloop := j, needLoop := j }
  let socket := p.sockets c
  if socket.status = -1 then .thrown p (.exception "accept: connection is closed")
  else if (p.watched j socket.fd).isSome then .thrown p (.exception "epoll_ctl EPOLL_CTL_ADD")
  else .returned (p.watch j socket.fd (some (Interest.of socket.status))) ()

/-- One turn of `Server::_accept`: the kernel hands out the descriptor `fd`, and
`valid` is what `_valid_ip` says; the loop is the active one. -/
def accept (p : Polling) (fd j : Nat) (valid : Bool) : Ended :=
  if maxConnects ≤ fd then .thrown p (.exception "socket fd error")
  else if !valid then .returned p ()
  else if (p.connections fd).isSome then .thrown p (.exception "Connection place is not empty")
  else
    { p with
      connections := Function.update p.connections fd (some p.accepted)
      maxFd := max p.maxFd fd
      accepted := p.accepted + 1
      sockets := Function.update p.sockets p.accepted ⟨fd, 1, 1, 0, 0, false, false⟩
      opened := Function.update p.opened fd true }.acceptAt j p.accepted

/-- `_close` up to `_switch_mode`. -/
def close (p : Polling) (j fd : Nat) : Ended :=
  match p.connections fd with
  | none => .thrown p (.exception "_close: connection is null")
  | some c =>
      ((p.modify c fun socket => { socket with status := -1 }).switchMode c).bind fun p _ =>
        .returned (p.goOn j (.leaving fd)) ()

/-- The end of `_close`; the kernel forgets a closed descriptor. -/
def leave (p : Polling) (j fd : Nat) : Polling :=
  { p with
    connections := Function.update p.connections fd none
    opened := Function.update p.opened fd false
    watched := fun j => Function.update (p.watched j) fd none }.goOn j .events

/-- `Connect::close` in the handler of an event. -/
def shut (p : Polling) (j fd : Nat) : Ended :=
  match p.connections fd with
  | none => .fault
  | some c =>
      if (p.sockets c).freed then .fault
      else .returned ((p.modify c fun socket => { socket with status := -1 }).goOn j (.closing fd)) ()

/-- The end of `on_send` on a connection that is kept. -/
def rest (p : Polling) (fd : Nat) : Ended :=
  match p.connections fd with
  | none => .fault
  | some c => p.writeMode c false

/-- `Loop::migrate` where a result is posted. -/
def migrate (p : Polling) (w c : ConnId) : Ended :=
  if (p.sockets w).freed then .fault
  else if (p.sockets w).nloop = (p.sockets w).needLoop then .returned p ()
  else if (p.sockets c).freed then .fault
  else
    let p := p.modify w fun socket => { socket with goLoop := true }
    let p := p.modify c fun socket => { socket with goLoop := true }
    .returned (p.modify c fun socket => { socket with needLoop := (p.sockets w).needLoop }) ()

/-- `_migrate_send` on one place of the table. -/
def sendAway (p : Polling) (j fd : Nat) : Ended :=
  match p.connections fd with
  | none => .returned p ()
  | some c =>
      let socket := p.sockets c
      if socket.freed then .fault
      else if socket.nloop ≠ j then .returned p ()
      else if !socket.goLoop || socket.needLoop = j then .returned p ()
      else
        let p := p.modify c fun socket => { socket with goLoop := false }
        if socket.status = -1 then .returned p ()
        else (p.setPollMode j socket.fd (-1)).bind fun p _ => p.acceptAt socket.needLoop c

def sendAll (p : Polling) (j : Nat) : List Nat → Ended
  | [] => .returned p ()
  | fd :: rest => (p.sendAway j fd).bind fun p _ => p.sendAll j rest

/-- `Loop::_migrate_send`. -/
def migrateSend (p : Polling) (j : Nat) : Ended := p.sendAll j (List.range (p.maxFd + 1))

/-- The `unlink` that gives up the last reference. -/
def unlinked (p : Polling) (c : ConnId) : Ended :=
  let socket := p.sockets c
  if socket.freed then .fault
  else .returned { p with dead := Function.update p.dead socket.nloop (p.dead socket.nloop ++ [c]) } ()

/-- `Loop::_delete_connections` up to its `for`; `got` says whether `del_lock` was
free. -/
def deleteConnections (p : Polling) (j : Nat) (got : Bool) : Polling :=
  if (p.dead j).isEmpty || !got then p.goOn j .events else p.goOn j (.deleting (p.dead j).length 0)

/-- One turn of that `for`; `free` says whether nobody refers to the connection. -/
def deleteNext (p : Polling) (j : Nat) (free : Bool) : Ended :=
  match p.round j with
  | .deleting count done =>
      match (p.dead j)[done]? with
      | none => .fault
      | some c =>
          if (p.sockets c).freed then .fault
          else
            let p := if free then p.modify c fun socket => { socket with freed := true } else p
            .returned (p.goOn j (.deleting count (done + 1))) ()
  | _ => .returned p ()

/-- The `clear()` behind it, and the end of a round. -/
def clearDead (p : Polling) (j : Nat) : Polling :=
  { p with dead := Function.update p.dead j [] }.goOn j .events

/-- The steps of the loops and of the thread that accepts.  `want` is a
`write_mode(true)` in the code of a loop, for a connection of any loop. -/
inductive Step where
  | accept (fd loop : Nat) (valid : Bool)
  | want (loop : Nat) (c : ConnId)
  | rest (loop fd : Nat)
  | shut (loop fd : Nat)
  | close (loop fd : Nat)
  | leave (loop fd : Nat)
  | performToSend (loop : Nat)
  | passOn (loop : Nat)
  | clearToSend (loop : Nat)
  | migrate (w c : ConnId)
  | migrateSend (loop : Nat)
  | unlinked (c : ConnId)
  | deleteConnections (loop : Nat) (got : Bool)
  | deleteNext (loop : Nat) (free : Bool)
  | clearDead (loop : Nat)

def step (p : Polling) : Step → Ended
  | .accept fd loop valid => p.accept fd loop valid
  | .want _ c => p.writeMode c true
  | .rest _ fd => p.rest fd
  | .shut loop fd => p.shut loop fd
  | .close loop fd => p.close loop fd
  | .leave loop fd => .returned (p.leave loop fd) ()
  | .performToSend loop => .returned (p.performToSend loop) ()
  | .passOn loop => p.passOn loop
  | .clearToSend loop => .returned (p.clearToSend loop) ()
  | .migrate w c => p.migrate w c
  | .migrateSend loop => p.migrateSend loop
  | .unlinked c => p.unlinked c
  | .deleteConnections loop got => .returned (p.deleteConnections loop got) ()
  | .deleteNext loop free => p.deleteNext loop free
  | .clearDead loop => .returned (p.clearDead loop) ()

/-- The part of the queue that a loop still has to go through. -/
def pending (p : Polling) (j : Nat) : List ConnId := (p.toSend j).drop (p.round j).passed

/-- The dead connections that a loop still has to go through. -/
def buried (p : Polling) (j : Nat) : List ConnId := (p.dead j).drop (p.round j).deleted

/-- A connection somebody refers to. -/
def Live (p : Polling) (c : ConnId) : Prop := c < p.accepted ∧ (p.sockets c).freed = false

/-- The place of a connection in the table. -/
def Connected (p : Polling) (c : ConnId) : Prop := p.connections (p.sockets c).fd = some c

/-- When a step is taken: the kernel hands out descriptors that are not in use
and reports events of those it watches, and a loop goes through its round. -/
def Enabled (p : Polling) : Step → Prop
  | .accept fd loop _ => p.opened fd = false ∧ loop < p.threads
  | .want loop c => (∀ count done, p.round loop ≠ .passing count done) ∧ p.Live c
  | .rest loop fd => p.round loop = .events ∧ (p.watched loop fd).any Interest.writing
  | .shut loop fd => p.round loop = .events ∧ (p.watched loop fd).isSome
  | .close loop fd => (p.round loop = .events ∧ (p.watched loop fd).isSome) ∨ p.round loop = .closing fd
  | .leave loop fd => p.round loop = .leaving fd
  | .performToSend loop => p.round loop = .events
  | .passOn loop => ∃ count done, p.round loop = .passing count done ∧ done < count
  | .clearToSend loop => ∃ count, p.round loop = .passing count count
  | .migrate w c => p.Live w ∧ p.Live c
  | .migrateSend loop => p.round loop = .sent
  | .unlinked c => p.Live c ∧ ¬p.Connected c ∧ c ∉ p.buried (p.sockets c).nloop
  | .deleteConnections loop _ => p.round loop = .sent
  | .deleteNext loop _ => ∃ count done, p.round loop = .deleting count done ∧ done < count
  | .clearDead loop => ∃ count, p.round loop = .deleting count count

/-- The states of a run. -/
inductive Reachable : Polling → Prop where
  | new (threads : Nat) : Reachable (new threads)
  | step {p q : Polling} (step : Step) :
      Reachable p → p.Enabled step → p.step step = .returned q () → Reachable q

/-! ### What a run keeps -/

variable {p q : Polling} {c d : ConnId} {j fd : Nat}

/-- Reading, or reading and writing. -/
def Mode (status : BitVec 32) : Prop := status = 1 ∨ status = 3

theorem not_mode_closed : ¬Mode (-1) := by
  rintro (one | three)
  · exact absurd one (by decide)
  · exact absurd three (by decide)

/-- How a connection of the table stands to its loop and to the kernel. -/
inductive Standing (p : Polling) (c : ConnId) : Prop where
  | listening (wanted : Mode (p.sockets c).status) (asked : Mode (p.sockets c).active)
      (watched : p.watched (p.sockets c).nloop (p.sockets c).fd = some (Interest.of (p.sockets c).active))
      (queued : (p.sockets c).status ≠ (p.sockets c).active →
        c ∈ p.pending (p.sockets c).nloop ∨ c ∈ p.missed)
      (unshut : p.round (p.sockets c).nloop ≠ .closing (p.sockets c).fd)
      (staying : p.round (p.sockets c).nloop ≠ .leaving (p.sockets c).fd)
  | closing (closed : (p.sockets c).status = -1) (asked : Mode (p.sockets c).active)
      (watched : p.watched (p.sockets c).nloop (p.sockets c).fd = some (Interest.of (p.sockets c).active))
      (round : p.round (p.sockets c).nloop = .closing (p.sockets c).fd)
  | leaving (closed : (p.sockets c).status = -1) (asked : (p.sockets c).active = -1)
      (watched : p.watched (p.sockets c).nloop (p.sockets c).fd = none)
      (round : p.round (p.sockets c).nloop = .leaving (p.sockets c).fd)

/-- A connection nobody has moved. -/
structure AtHome (threads : Nat) (socket : Socket) : Prop where
  known : socket.nloop < threads
  same : socket.needLoop = socket.nloop
  stays : socket.goLoop = false

/-- How a connection stands whose wish to write was missed: it has that wish on, so
that `write_mode(true)` does nothing, until it is closed. -/
def Stuck (socket : Socket) : Prop := (socket.status = 3 ∧ socket.active = 1) ∨ socket.status = -1

/-- The table, the queues, the sockets and the kernel agree. -/
structure Wired (p : Polling) : Prop where
  place : ∀ fd c, p.connections fd = some c → (p.sockets c).fd = fd ∧ p.Live c
  opened : ∀ fd, p.opened fd = (p.connections fd).isSome
  home : ∀ c, c < p.accepted → AtHome p.threads (p.sockets c)
  standing : ∀ c, p.Connected c → p.Standing c
  gone : ∀ c, c < p.accepted → ¬p.Connected c → (p.sockets c).status = -1 ∧ (p.sockets c).active = -1
  watched : ∀ j fd, (p.watched j fd).isSome → ∃ c, p.connections fd = some c ∧ (p.sockets c).nloop = j
  queued : ∀ j, ∀ c ∈ p.toSend j, p.Live c ∧ (p.sockets c).nloop = j
  fresh : ∀ j, (p.round j).late = true → ∀ c ∈ p.toSend j, p.Connected c
  passing : ∀ j count done, p.round j = .passing count done → done ≤ count ∧ count ≤ (p.toSend j).length ∧
    ∀ c ∈ (p.toSend j).drop count, p.Connected c ∧ (p.sockets c).status = 3
  missed : ∀ c ∈ p.missed, c < p.accepted ∧ (∀ j, c ∉ p.toSend j) ∧ Stuck (p.sockets c)
  dead : ∀ j, ∀ c ∈ p.buried j, p.Live c ∧ (p.sockets c).nloop = j ∧ ¬p.Connected c
  once : ∀ j, (p.buried j).Nodup
  deleting : ∀ j count done, p.round j = .deleting count done → done ≤ count ∧ count ≤ (p.dead j).length
  leaver : ∀ j fd, p.round j = .closing fd ∨ p.round j = .leaving fd →
    ∃ c, p.connections fd = some c ∧ (p.sockets c).nloop = j

theorem wired_new (threads : Nat) : Wired (new threads) where
  place := fun _ _ found => by cases found
  opened := fun _ => rfl
  home := fun _ known => absurd known (Nat.not_lt_zero _)
  standing := fun _ connected => by cases connected
  gone := fun _ known => absurd known (Nat.not_lt_zero _)
  watched := fun _ _ found => by cases found
  queued := fun _ _ member => by cases member
  fresh := fun _ _ _ member => by cases member
  passing := fun _ _ _ round => by cases round
  missed := fun _ member => by cases member
  dead := fun _ _ member => by cases member
  once := fun _ => List.nodup_nil
  deleting := fun _ _ _ round => by cases round
  leaver := fun _ _ round => by rcases round with round | round <;> cases round

theorem Wired.connected (wired : Wired p) (found : p.connections fd = some c) : p.Connected c := by
  rw [Connected, (wired.place fd c found).1]
  exact found

theorem Wired.passed_le (wired : Wired p) (j : Nat) : (p.round j).passed ≤ (p.toSend j).length := by
  cases round : p.round j with
  | passing count done =>
      obtain ⟨few, room, -⟩ := wired.passing j count done round
      exact Nat.le_trans few room
  | _ => exact Nat.zero_le _

theorem Connected.unique (first : p.Connected c) (second : p.Connected d)
    (same : (p.sockets c).fd = (p.sockets d).fd) : c = d := by
  rw [Connected] at first second
  rw [same, second] at first
  exact (Option.some.inj first).symm

/-- At its events and behind them the connections of a loop are open. -/
theorem Wired.listens (wired : Wired p) (connected : p.Connected c)
    (calm : (p.round (p.sockets c).nloop).closes = false) : Mode (p.sockets c).status ∧ Mode (p.sockets c).active ∧
      p.watched (p.sockets c).nloop (p.sockets c).fd = some (Interest.of (p.sockets c).active) ∧
      ((p.sockets c).status ≠ (p.sockets c).active → c ∈ p.pending (p.sockets c).nloop ∨ c ∈ p.missed) := by
  cases wired.standing c connected with
  | listening wanted asked watched queued => exact ⟨wanted, asked, watched, queued⟩
  | closing _ _ _ round =>
      rw [round] at calm
      cases calm
  | leaving _ _ _ round =>
      rw [round] at calm
      cases calm

theorem Standing.frame (standing : p.Standing c) (socket : q.sockets c = p.sockets c)
    (watched : q.watched (p.sockets c).nloop (p.sockets c).fd = p.watched (p.sockets c).nloop (p.sockets c).fd)
    (queued : (p.sockets c).status ≠ (p.sockets c).active → c ∈ p.pending (p.sockets c).nloop ∨ c ∈ p.missed →
      c ∈ q.pending (p.sockets c).nloop ∨ c ∈ q.missed)
    (closing : q.round (p.sockets c).nloop = .closing (p.sockets c).fd ↔
      p.round (p.sockets c).nloop = .closing (p.sockets c).fd)
    (leaving : q.round (p.sockets c).nloop = .leaving (p.sockets c).fd ↔
      p.round (p.sockets c).nloop = .leaving (p.sockets c).fd) : q.Standing c := by
  cases standing with
  | listening wanted asked seen member unshut staying =>
      refine .listening ?_ ?_ ?_ ?_ ?_ ?_ <;> rw [socket]
      · exact wanted
      · exact asked
      · rw [watched, seen]
      · exact fun differ => queued differ (member differ)
      · exact fun now => unshut (closing.mp now)
      · exact fun now => staying (leaving.mp now)
  | closing closed asked seen round =>
      refine .closing ?_ ?_ ?_ ?_ <;> rw [socket]
      · exact closed
      · exact asked
      · rw [watched, seen]
      · exact closing.mpr round
  | leaving closed asked seen round =>
      refine .leaving ?_ ?_ ?_ ?_ <;> rw [socket]
      · exact closed
      · exact asked
      · rw [watched, seen]
      · exact leaving.mpr round

/-- Only a connection of the table has changed: what it wants, what was asked
for it, and how far its loop is with it. -/
structure Touched (p q : Polling) (c : ConnId) : Prop where
  threads : q.threads = p.threads
  accepted : q.accepted = p.accepted
  connections : q.connections = p.connections
  opened : q.opened = p.opened
  dead : q.dead = p.dead
  missed : q.missed = p.missed
  others : ∀ d, d ≠ c → q.sockets d = p.sockets d
  self : q.sockets c = { p.sockets c with status := (q.sockets c).status, active := (q.sockets c).active }
  watched : ∀ j fd, ¬(j = (p.sockets c).nloop ∧ fd = (p.sockets c).fd) → q.watched j fd = p.watched j fd
  toSend : ∀ j, q.toSend j = p.toSend j ∨ (j = (p.sockets c).nloop ∧ q.toSend j = p.toSend j ++ [c])
  round : ∀ j, q.round j = p.round j ∨
    (j = (p.sockets c).nloop ∧ (p.round j = .events ∨ p.round j = .closing (p.sockets c).fd) ∧
      (q.round j = .closing (p.sockets c).fd ∨ q.round j = .leaving (p.sockets c).fd))

namespace Touched

variable (touched : Touched p q c)

include touched

theorem place (d : ConnId) : (q.sockets d).fd = (p.sockets d).fd := by
  by_cases same : d = c
  · rw [same, touched.self]
  · rw [touched.others d same]

theorem nloop (d : ConnId) : (q.sockets d).nloop = (p.sockets d).nloop := by
  by_cases same : d = c
  · rw [same, touched.self]
  · rw [touched.others d same]

theorem live (d : ConnId) : q.Live d ↔ p.Live d := by
  rw [Live, Live, touched.accepted]
  by_cases same : d = c
  · rw [same, touched.self]
  · rw [touched.others d same]

theorem connected (d : ConnId) : q.Connected d ↔ p.Connected d := by
  rw [Connected, Connected, touched.connections, touched.place]

theorem atHome (d : ConnId) : AtHome q.threads (q.sockets d) ↔ AtHome p.threads (p.sockets d) := by
  rw [touched.threads]
  by_cases same : d = c
  · rw [same, touched.self]
    exact ⟨fun home => ⟨home.known, home.same, home.stays⟩, fun home => ⟨home.known, home.same, home.stays⟩⟩
  · rw [touched.others d same]

/-- The loops are as far in their queues as before. -/
theorem counts (j : Nat) : (q.round j).passed = (p.round j).passed ∧ (q.round j).deleted = (p.round j).deleted := by
  rcases touched.round j with same | ⟨-, before, now⟩
  · rw [same]
    exact ⟨rfl, rfl⟩
  · rcases before with before | before <;> rcases now with now | now <;> rw [before, now] <;> exact ⟨rfl, rfl⟩

theorem buried (j : Nat) : q.buried j = p.buried j := by
  rw [Polling.buried, Polling.buried, touched.dead, (touched.counts j).2]

/-- A round that is not one of a close has not changed. -/
theorem sameRound (calm : (q.round j).closes = false) : p.round j = q.round j := by
  rcases touched.round j with same | ⟨-, -, now | now⟩
  · exact same.symm
  · rw [now] at calm
    cases calm
  · rw [now] at calm
    cases calm

theorem queued {x : ConnId} (count : Nat) (member : x ∈ (q.toSend j).drop count) :
    x ∈ (p.toSend j).drop count ∨ (x = c ∧ j = (p.sockets c).nloop ∧ q.toSend j ≠ p.toSend j) := by
  rcases touched.toSend j with same | ⟨here, more⟩
  · exact .inl (same ▸ member)
  · rw [more, List.drop_append] at member
    rcases List.mem_append.mp member with old | new
    · exact .inl old
    · refine .inr ⟨List.mem_singleton.mp (List.mem_of_mem_drop new), here, ?_⟩
      rw [more]
      simp

theorem stillPending {x : ConnId} (member : x ∈ p.pending j) : x ∈ q.pending j := by
  rw [pending] at member ⊢
  rw [(touched.counts j).1]
  rcases touched.toSend j with same | ⟨-, more⟩
  · exact same.symm ▸ member
  · rw [more, List.drop_append]
    exact List.mem_append_left _ member

theorem standing (connected : p.Connected c) (other : p.Connected d) (different : d ≠ c)
    (standing : p.Standing d) : q.Standing d := by
  have apart : (p.sockets d).fd ≠ (p.sockets c).fd := fun same => different (other.unique connected same)
  have round := touched.round (p.sockets d).nloop
  refine standing.frame (touched.others d different) (touched.watched _ _ fun both => apart both.2)
    (fun _ member => member.imp touched.stillPending fun missed => touched.missed ▸ missed) ?_ ?_
  · rcases round with same | ⟨-, before, now⟩
    · rw [same]
    · constructor
      · intro here
        rw [here] at now
        rcases now with now | now
        · exact absurd (Round.closing.inj now) apart
        · cases now
      · intro here
        rw [here] at before
        rcases before with was | was
        · cases was
        · exact absurd (Round.closing.inj was) apart
  · rcases round with same | ⟨-, before, now⟩
    · rw [same]
    · constructor
      · intro here
        rw [here] at now
        rcases now with now | now
        · cases now
        · exact absurd (Round.leaving.inj now) apart
      · intro here
        rw [here] at before
        rcases before with was | was <;> cases was

/-- What is left to show is how the connection itself stands: while its queue is
gone through it can only wish to write, and a missed one is not in a queue. -/
theorem wired (wired : Wired p) (connected : p.Connected c) (stands : q.Standing c)
    (wishes : ∀ count done, p.round (p.sockets c).nloop = .passing count done → (q.sockets c).status = 3 ∨
      (q.toSend = p.toSend ∧ (q.sockets c).status = (p.sockets c).status))
    (stuck : c ∈ p.missed → q.toSend = p.toSend ∧ Stuck (q.sockets c)) : Wired q where
  place := by
    intro fd d found
    rw [touched.connections] at found
    rw [touched.place, touched.live]
    exact wired.place fd d found
  opened := by
    rw [touched.opened, touched.connections]
    exact wired.opened
  home := fun d known => (touched.atHome d).mpr (wired.home d (touched.accepted ▸ known))
  standing := by
    intro d isConnected
    have other := (touched.connected d).mp isConnected
    by_cases same : d = c
    · rw [same]
      exact stands
    · exact touched.standing connected other same (wired.standing d other)
  gone := by
    intro d known out
    have before : ¬p.Connected d := fun was => out ((touched.connected d).mpr was)
    have different : d ≠ c := fun same => before (same ▸ connected)
    rw [touched.others d different]
    exact wired.gone d (touched.accepted ▸ known) before
  watched := by
    intro j fd seen
    rw [touched.connections]
    by_cases here : j = (p.sockets c).nloop ∧ fd = (p.sockets c).fd
    · refine ⟨c, ?_, ?_⟩
      · rw [here.2]
        exact connected
      · rw [touched.nloop, here.1]
    · rw [touched.watched j fd here] at seen
      obtain ⟨d, found, loop⟩ := wired.watched j fd seen
      exact ⟨d, found, by rw [touched.nloop, loop]⟩
  queued := by
    intro j d member
    rw [touched.live, touched.nloop]
    rcases touched.queued 0 member with old | ⟨rfl, here, -⟩
    · exact wired.queued j d old
    · exact ⟨(wired.place _ d connected).2, here.symm⟩
  fresh := by
    intro j late d member
    rw [touched.connected]
    have calm : (q.round j).closes = false := by
      cases now : q.round j <;> rw [now] at late <;> first | rfl | cases late
    rw [← touched.sameRound calm] at late
    rcases touched.queued 0 member with old | ⟨rfl, -⟩
    · exact wired.fresh j late d old
    · exact connected
  passing := by
    intro j count done passing
    have before := touched.sameRound (by rw [passing]; rfl : (q.round j).closes = false)
    rw [passing] at before
    obtain ⟨few, room, behind⟩ := wired.passing j count done before
    refine ⟨few, Nat.le_trans room ?_, fun d member => ?_⟩
    · rcases touched.toSend j with same | ⟨-, more⟩
      · exact Nat.le_of_eq (congrArg List.length same.symm)
      · rw [more, List.length_append]
        exact Nat.le_add_right _ _
    · rw [touched.connected]
      rcases touched.queued count member with old | ⟨rfl, here, longer⟩
      · obtain ⟨isConnected, wants⟩ := behind d old
        refine ⟨isConnected, ?_⟩
        by_cases same : d = c
        · subst same
          rw [← (wired.queued j d (List.mem_of_mem_drop old)).2] at before
          rcases wishes count done before with three | ⟨-, kept⟩
          · exact three
          · rw [kept, wants]
        · rw [touched.others d same, wants]
      · rw [here] at before longer
        rcases wishes count done before with three | ⟨same, -⟩
        · exact ⟨connected, three⟩
        · exact absurd (congrFun same _) longer
  missed := by
    intro d member
    rw [touched.missed] at member
    obtain ⟨known, unqueued, isStuck⟩ := wired.missed d member
    rw [touched.accepted]
    by_cases same : d = c
    · subst same
      obtain ⟨queues, stays⟩ := stuck member
      exact ⟨known, fun j => by rw [queues]; exact unqueued j, stays⟩
    · refine ⟨known, fun j again => ?_, by rw [touched.others d same]; exact isStuck⟩
      rcases touched.queued 0 again with old | ⟨isC, -⟩
      · exact unqueued j old
      · exact same isC
  dead := by
    intro j d member
    rw [touched.buried] at member
    rw [touched.live, touched.nloop, touched.connected]
    exact wired.dead j d member
  once := by
    intro j
    rw [touched.buried]
    exact wired.once j
  deleting := by
    intro j count done deleting
    rw [touched.dead]
    have before := touched.sameRound (by rw [deleting]; rfl : (q.round j).closes = false)
    exact wired.deleting j count done (before.trans deleting)
  leaver := by
    intro j fd round
    rw [touched.connections]
    rcases touched.round j with same | ⟨here, -, now⟩
    · rw [same] at round
      obtain ⟨d, found, loop⟩ := wired.leaver j fd round
      exact ⟨d, found, by rw [touched.nloop, loop]⟩
    · have isFd : fd = (p.sockets c).fd := by
        rcases now with now | now <;> rcases round with round | round <;> rw [now] at round <;> cases round <;> rfl
      refine ⟨c, ?_, ?_⟩
      · rw [isFd]
        exact connected
      · rw [touched.nloop, here]

end Touched

end Polling

end Ijson
