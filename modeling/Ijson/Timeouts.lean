/-
The timeout of a worker.

A `Timeout` header sets the number of seconds after which a worker that waits
is answered 408; bytes it sends and the answer itself start the time anew.
The header is read in 64 bits and the deadline kept in 32, so the sum has to
fit there.
-/

import Ijson.GeneratedIds
import Ijson.Registrations

namespace Ijson

open Program

/-- A moment of a run with the operation it belongs to. -/
structure Tick where
  input : Input
  action : Action
  state : Server

def Input.ticks (input : Input) (s : Server) : List Tick :=
  (input.run s).1.map fun moment => ⟨input, moment.1, moment.2⟩

/-- A run of the server with all its ticks. -/
inductive Timeline : List Tick → Server → Prop where
  | new (threads : Nat) (jsonrpc2 : Bool) (version : Bytes) (startTime : Nat) :
      Timeline [] (Server.new threads jsonrpc2 version startTime)
  | step {past : List Tick} {s after : Server} (input : Input) :
      Timeline past s → input.Enabled s → (input.run s).2 = .returned after () →
      Timeline (past ++ input.ticks s) after

/-- What matters for the timeout of a connection: it is accepted, bytes arrive
from it, a `Timeout` header of it is read, and it is answered 408. -/
inductive Occasion where
  | opened
  | bytes (now : Nat)
  | header (now : Nat) (value : Int)
  | answer (now : Nat)
  deriving DecidableEq

/-- The clock on the occasion. -/
def Occasion.reading : Occasion → Option Nat
  | .opened => none
  | .bytes now => some now
  | .header now _ => some now
  | .answer now => some now

def Tick.occasion (c : ConnId) (tick : Tick) : Option Occasion :=
  match tick.action, tick.input with
  | .accept _ _, _ => if tick.state.accepted = c then some .opened else none
  | .receive _ _, .recv d _ env => if d = c then some (.bytes (env.now tick.state.tick)) else none
  | .edit d taken _, .recv _ _ env =>
      if d = c then
        match (tick.state.conns c).http.headerIn taken with
        | some (.timeout value) => some (.header (env.now tick.state.tick) value)
        | _ => none
      else none
  | .expire i j p now, _ =>
      if tick.state.workerAt i j p = some c ∧ (tick.state.conns c).closed = false then some (.answer now) else none
  | _, _ => none

def history (c : ConnId) (ticks : List Tick) : List Occasion := ticks.filterMap (Tick.occasion c)

/-- The value of the last `Timeout` header, 0 before the first one, and when
the last bytes came and the last answer 408 was given. -/
structure Watch where
  timeout : Int
  received : Nat
  answered : Nat
  deriving DecidableEq

namespace Watch

def new : Watch :=
  { timeout := 0
    received := 0
    answered := 0 }

def next (watch : Watch) : Occasion → Watch
  | .opened => new
  | .bytes now => { watch with received := now }
  | .header _ value => { watch with timeout := value }
  | .answer now => { watch with answered := now }

/-- The later of the last bytes and the last answer. -/
def since (watch : Watch) : Nat := max watch.received watch.answered

def after (occasions : List Occasion) : Watch := occasions.foldl next new

/-- A deadline that is set on this occasion fits into 32 bits. -/
def Fits (watch : Watch) (occasion : Occasion) : Prop :=
  ∀ now ∈ occasion.reading, 1 ≤ (watch.next occasion).timeout → u32 (watch.next occasion).timeout ≠ 0 →
    now + (watch.next occasion).timeout < 2 ^ 32

instance (watch : Watch) (occasion : Occasion) : Decidable (watch.Fits occasion) :=
  inferInstanceAs (Decidable (∀ now ∈ occasion.reading, _))

/-- So it is on all occasions. -/
def Timely : Watch → List Occasion → Prop
  | _, [] => True
  | watch, occasion :: rest => watch.Fits occasion ∧ Timely (watch.next occasion) rest

instance decidableTimely : (watch : Watch) → (occasions : List Occasion) → Decidable (watch.Timely occasions)
  | _, [] => isTrue trivial
  | watch, occasion :: rest =>
      haveI := decidableTimely (watch.next occasion) rest
      inferInstanceAs (Decidable (_ ∧ _))

/-- The clock never goes backwards. -/
def Forward (occasions : List Occasion) : Prop :=
  (occasions.filterMap Occasion.reading).Pairwise (· ≤ ·)

instance (occasions : List Occasion) : Decidable (Forward occasions) :=
  inferInstanceAs (Decidable (List.Pairwise _ _))

@[simp] theorem after_append (occasions : List Occasion) (occasion : Occasion) :
    after (occasions ++ [occasion]) = (after occasions).next occasion := by
  rw [after, List.foldl_append]
  rfl

theorem timely_append {watch : Watch} {front back : List Occasion} :
    watch.Timely (front ++ back) ↔ watch.Timely front ∧ (front.foldl next watch).Timely back := by
  induction front generalizing watch with
  | nil => exact (true_and _).to_iff.symm
  | cons occasion front ih =>
      rw [List.cons_append, Timely, Timely, ih, and_assoc]
      rfl

theorem since_reading (occasions : List Occasion) :
    ((after occasions).received = 0 ∨ (after occasions).received ∈ occasions.filterMap Occasion.reading) ∧
      ((after occasions).answered = 0 ∨ (after occasions).answered ∈ occasions.filterMap Occasion.reading) := by
  induction occasions using List.reverseRecOn with
  | nil => exact ⟨Or.inl rfl, Or.inl rfl⟩
  | append_singleton occasions occasion ih =>
      rw [after_append, List.filterMap_append]
      have kept : ∀ value : Nat, value = 0 ∨ value ∈ occasions.filterMap Occasion.reading →
          value = 0 ∨ value ∈ occasions.filterMap Occasion.reading ++ [occasion].filterMap Occasion.reading :=
        fun value known => known.imp_right (List.mem_append_left _)
      cases occasion with
      | opened => exact ⟨Or.inl rfl, Or.inl rfl⟩
      | bytes now => exact ⟨Or.inr (by simp [next, Occasion.reading]), kept _ ih.2⟩
      | header now value => exact ⟨kept _ ih.1, kept _ ih.2⟩
      | answer now => exact ⟨kept _ ih.1, Or.inr (by simp [next, Occasion.reading])⟩

theorem since_le {occasions : List Occasion} {occasion : Occasion} {now : Nat}
    (forward : Forward (occasions ++ [occasion])) (reads : occasion.reading = some now) :
    (after occasions).since ≤ now := by
  rw [Forward, List.filterMap_append, List.pairwise_append] at forward
  have before : ∀ value, value = 0 ∨ value ∈ occasions.filterMap Occasion.reading → value ≤ now := by
    intro value known
    cases known with
    | inl zero => omega
    | inr member => exact forward.2.2 value member now (by simp [reads])
  have known := since_reading occasions
  exact max_le (before _ known.1) (before _ known.2)

end Watch

theorem u32_eq {value : Int} (low : 0 ≤ value) (fits : value < 2 ^ 32) : (u32 value : Int) = value := by
  rw [u32, Int.emod_eq_of_lt low fits]
  exact Int.toNat_of_nonneg low

theorem u32_deadline {now : Nat} {timeout : Int} (positive : 1 ≤ timeout) (fits : now + timeout < 2 ^ 32) :
    (u32 (now + u32 timeout) : Int) = now + timeout := by
  rw [u32_eq (by omega) (by omega : timeout < 2 ^ 32), u32_eq (by omega) fits]

/-- The deadline of a connection fits what has happened. -/
structure Clocked (watch : Watch) (http : Http) : Prop where
  ping : http.ping = u32 watch.timeout
  due : 1 ≤ watch.timeout → http.ping ≠ 0 → watch.since + watch.timeout ≤ http.pingTimeout

namespace Clocked

variable {watch : Watch} {http other : Http}

theorem kept (clocked : Clocked watch http) (same : other.deadline = http.deadline) : Clocked watch other := by
  have ping : other.ping = http.ping := congrArg Prod.fst same
  have pingTimeout : other.pingTimeout = http.pingTimeout := congrArg Prod.snd same
  constructor
  · rw [ping]
    exact clocked.ping
  · rw [ping, pingTimeout]
    exact clocked.due

theorem set {occasion : Occasion} {now : Nat} (fits : watch.Fits occasion) (reads : occasion.reading = some now)
    (since : (watch.next occasion).since ≤ now) (ping : other.ping = u32 (watch.next occasion).timeout)
    (pingTimeout : other.pingTimeout = u32 (now + other.ping)) : Clocked (watch.next occasion) other := by
  constructor
  · exact ping
  · intro positive named
    rw [ping] at named
    rw [pingTimeout, ping, u32_deadline positive (fits now reads positive named)]
    omega

end Clocked

/-- The run so far is on time. -/
def Watch.Steady (occasions : List Occasion) : Prop := Watch.Forward occasions ∧ Watch.new.Timely occasions

theorem Watch.Steady.before {front back : List Occasion} (steady : Watch.Steady (front ++ back)) :
    Watch.Steady front := by
  obtain ⟨forward, timely⟩ := steady
  rw [Watch.Forward, List.filterMap_append, List.pairwise_append] at forward
  exact ⟨forward.1, (Watch.timely_append.mp timely).1⟩

theorem Watch.Steady.fits {occasions : List Occasion} {occasion : Occasion}
    (steady : Watch.Steady (occasions ++ [occasion])) : (Watch.after occasions).Fits occasion :=
  (Watch.timely_append.mp steady.2).2.1

/-- The action keeps the deadline of `c` as it has to be. -/
def KeepsTime (input : Input) (c : ConnId) (action : Action) (s : Server) : Prop :=
  ∀ occasions : List Occasion, Clocked (Watch.after occasions) (s.conns c).http →
    Watch.Steady (occasions ++ ((Tick.mk input action s).occasion c).toList) →
    (action.apply s).Ends
      (fun _ t => Clocked (Watch.after (occasions ++ ((Tick.mk input action s).occasion c).toList)) (t.conns c).http)
      fun _ t => Clocked (Watch.after (occasions ++ ((Tick.mk input action s).occasion c).toList)) (t.conns c).http

section Actions

variable {input : Input} {c : ConnId} {action : Action} {s : Server}

theorem keepsTime_of_same (quiet : (Tick.mk input action s).occasion c = none)
    (same : (action.apply s).Ends (fun _ t => (t.conns c).http.deadline = (s.conns c).http.deadline)
      fun _ t => (t.conns c).http.deadline = (s.conns c).http.deadline) : KeepsTime input c action s := by
  intro occasions clocked _
  rw [quiet, Option.toList_none, List.append_nil]
  exact Ends.mono same (fun _ _ same => clocked.kept same) fun _ _ same => clocked.kept same

theorem keepsTime_of_unmoved {naming : Naming} (quiet : (Tick.mk input action s).occasion c = none)
    (unmoved : Unmoves naming s (action.apply s)) : KeepsTime input c action s :=
  keepsTime_of_same quiet (Ends.mono unmoved (fun _ _ kept => kept.deadline c) fun _ _ kept => kept.deadline c)

theorem keepsTime_of_set (occasion : Occasion) (happens : (Tick.mk input action s).occasion c = some occasion)
    (sets : ∀ occasions, Clocked (Watch.after occasions) (s.conns c).http →
      (Watch.after occasions).Fits occasion → (∀ now ∈ occasion.reading, (Watch.after occasions).since ≤ now) →
      (action.apply s).Ends (fun _ t => Clocked ((Watch.after occasions).next occasion) (t.conns c).http)
        fun _ t => Clocked ((Watch.after occasions).next occasion) (t.conns c).http) :
    KeepsTime input c action s := by
  intro occasions clocked steady
  rw [happens, Option.toList_some] at steady ⊢
  rw [Watch.after_append]
  exact sets occasions clocked steady.fits fun now reads => Watch.since_le steady.1 reads

theorem expire_keepsTime (i j p now : Nat) : KeepsTime input c (.expire i j p now) s := by
  cases found : s.workerAt i j p with
  | none =>
      refine keepsTime_of_same (if_neg ?_) ?_
      · rw [found]
        rintro ⟨known, _⟩
        cases known
      · simp only [Action.apply, Server.expire, found]
        trivial
  | some w =>
      have answering : Unmoves ⟨fun _ => True, 0⟩ s ((s.modify w Server.afterAsync).send w ⟨"408 Timeout", [], .nothing⟩) :=
        Unmoved.send_unmoved (Unmoved.changed (Unmoved.refl s) fun _ => rfl)
      by_cases answered : w = c ∧ (s.conns c).closed = false
      · obtain ⟨rfl, opened⟩ := answered
        refine keepsTime_of_set (.answer now) (if_pos ⟨found, opened⟩)
          fun occasions clocked fits late => ?_
        have stillOpen : ((s.modify w Server.afterAsync).conns w).closed = false := by
          rw [Server.modify_self]
          exact opened
        rw [Server.send_open stillOpen] at answering
        have same := congrArg Prod.fst (answering.deadline w)
        simp only [Action.apply, Server.expire, found, Ends_andThen, Server.send_open stillOpen, Ends_returned]
        rw [Server.modify_self]
        refine Clocked.set fits rfl (max_le ?_ (le_refl now)) (same.trans clocked.ping) rfl
        exact (le_max_left _ _).trans (late now rfl)
      · refine keepsTime_of_same (if_neg fun both => answered ⟨?_, both.2⟩) ?_
        · rw [found] at both
          exact Option.some.inj both.1
        · simp only [Action.apply, Server.expire, found, Ends_andThen]
          cases closedEq : (s.conns w).closed with
          | false =>
              have other : c ≠ w := by
                rintro rfl
                exact answered ⟨rfl, closedEq⟩
              refine Ends.mono answering (fun _ t unmoved => ?_) fun _ t unmoved => unmoved.deadline c
              rw [Ends_returned, Server.modify_conns, if_neg other]
              exact unmoved.deadline c
          | true =>
              have shut : ((s.modify w Server.afterAsync).conns w).closed = true := by
                rw [Server.modify_self]
                exact closedEq
              refine Server.send_ends (fun opened => ?_) fun _ => ?_
              · rw [shut] at opened
                cases opened
              · have headed : Unmoved ⟨fun _ => True, 0⟩ s ((s.modify w Server.afterAsync).headed w ⟨"408 Timeout", [], .nothing⟩) :=
                  Unmoved.changed (Unmoved.changed (Unmoved.refl s) fun _ => rfl) fun _ => rfl
                exact headed.deadline c

theorem served_keepsTime (other : action.parses = false) (placed : ∀ loop garbage, action ≠ .accept loop garbage) :
    KeepsTime input c action s := by
  by_cases late : ∃ i j p now, action = .expire i j p now
  · obtain ⟨i, j, p, now, rfl⟩ := late
    exact expire_keepsTime i j p now
  · have early : ∀ i j p now, action ≠ .expire i j p now := fun i j p now same => late ⟨i, j, p, now, same⟩
    have unmoved : Unmoves ⟨fun _ => True, action.random⟩ s (action.apply s) :=
      Unmoved.apply_unmoved s other placed early rfl fun _ _ _ _ _ => trivial
    refine keepsTime_of_unmoved ?_ unmoved
    cases action with
    | accept loop garbage => exact absurd rfl (placed loop garbage)
    | expire i j p now => exact absurd rfl (early i j p now)
    | receive | edit => cases other
    | _ => rfl

theorem edit_keepsTime {d : ConnId} {taken : Bytes} {change : Http → Http}
    (same : (change (s.conns d).http).deadline = (s.conns d).http.deadline)
    (unread : ∀ value, (s.conns d).http.headerIn taken ≠ some (.timeout value)) :
    KeepsTime input c (.edit d taken change) s := by
  refine keepsTime_of_same ?_ ?_
  · cases input with
    | recv e chunk env =>
        simp only [Tick.occasion]
        by_cases own : d = c
        · rw [if_pos own]
          subst own
          split
          · rename_i value read
            exact absurd read (unread value)
          · rfl
        · exact if_neg own
    | _ => rfl
  · change (Conn.http _).deadline = _
    rw [Server.modify_conns]
    by_cases own : c = d
    · rw [if_pos own, own]
      exact same
    · rw [if_neg own]
      rfl

end Actions

theorem frees_keepsTime (input : Input) (c : ConnId) : Routine.Frees (KeepsTime input c) := by
  constructor
  · intro action serves s
    rw [Action.serves, Bool.and_eq_true, Bool.not_eq_true', Bool.not_eq_true'] at serves
    refine served_keepsTime serves.2 fun loop garbage same => ?_
    rw [same] at serves
    cases serves.1
  · exact fun d change _ same s _ => edit_keepsTime (same _) (Http.headerIn_nil _)

theorem reader_keepsTime {input : Input} {c d : ConnId} {action : Action} (reads : action.reader = some d)
    (other : ∀ taken change, action ≠ .edit d taken change) (s : Server) : KeepsTime input c action s := by
  refine keepsTime_of_same ?_ ?_
  · cases action with
    | begin | endHead | rewind => rfl
    | edit e taken change =>
        cases reads
        exact absurd rfl (other taken change)
    | _ => cases reads
  · have changed : ∀ (t : Server) (e : ConnId) (change : Conn → Conn),
        (t.conns c).http.deadline = (s.conns c).http.deadline →
        (∀ conn, (change conn).http.deadline = conn.http.deadline) →
        ((t.modify e change).conns c).http.deadline = (s.conns c).http.deadline := by
      intro t e change before keeps
      rw [Server.modify_conns]
      by_cases own : c = e
      · rw [if_pos own, keeps, ← own, before]
      · rw [if_neg own, before]
    cases action with
    | edit e taken change =>
        cases reads
        exact absurd rfl (other taken change)
    | begin e taken line =>
        refine Ends.mono (begin_ends s e taken line) (fun _ t begun => ?_) fun _ t cleared => ?_
        · by_cases own : c = e
          · rw [own, begun.http]
            rfl
          · exact begun.deadline c own
        · by_cases own : c = e
          · rw [own, cleared.http]
            rfl
          · exact cleared.deadline c own
    | endHead e taken body => exact changed _ e _ rfl fun _ => rfl
    | rewind e =>
        exact changed s e (fun conn => { conn with http := { conn.http with step := .start } }) rfl fun _ => rfl
    | _ => cases reads

theorem parses_keepsTime (d : ConnId) (chunk : Bytes) (env : Env) (c : ConnId) :
    Routine.Parses (KeepsTime (.recv d chunk env) c) env d := by
  constructor
  · exact fun action reads other s => reader_keepsTime reads other s
  · exact fun taken change s same unread => edit_keepsTime (congrArg Prod.fst (same _)) unread
  · intro taken header place start s read
    by_cases timed : ∃ value, header = .timeout value
    · obtain ⟨value, rfl⟩ := timed
      by_cases own : d = c
      · subst own
        have happens : (Tick.mk (.recv d chunk env) (.edit d taken fun _ =>
            (s.conns d).http.store (env.now s.tick) place start (.timeout value)) s).occasion d =
            some (.header (env.now s.tick) value) := by
          simp only [Tick.occasion, if_true, read]
        refine keepsTime_of_set _ happens fun occasions clocked fits late => ?_
        change Clocked _ (Conn.http _)
        rw [Server.modify_self]
        exact Clocked.set fits rfl (late _ rfl) rfl rfl
      · refine keepsTime_of_same (if_neg own) ?_
        change (Conn.http _).deadline = _
        rw [Server.modify_conns, if_neg (Ne.symm own)]
        rfl
    · refine edit_keepsTime ?_ fun value same => ?_
      · cases header with
        | timeout value => exact absurd ⟨value, rfl⟩ timed
        | _ => rfl
      · rw [read] at same
        exact timed ⟨value, Option.some.inj same⟩

theorem register_keepsTime (input : Input) (c d : ConnId) (i : Nat) :
    Routine.Heeds (KeepsTime input c) (Routine.registerIn d i) :=
  Routine.anyRegister_heeds ((frees_keepsTime input c).attends d)
    (fun _ _ => served_keepsTime rfl fun _ _ => Action.noConfusion) i

theorem completed_keepsTime (input : Input) (c d : ConnId) (env : Env) :
    Routine.Heeds (KeepsTime input c) (Routine.headerCompleted env d) :=
  Routine.headerCompleted_heeds ((frees_keepsTime input c).attends d) (register_keepsTime input c d)

/-- What has happened on `c` when an operation is under way. -/
def Input.lived (input : Input) (c : ConnId) (past : List Tick) (moments : List (Action × Server)) :
    List Occasion :=
  history c (past ++ moments.map fun moment => ⟨input, moment.1, moment.2⟩)

theorem Input.lived_append (input : Input) (c : ConnId) (past : List Tick) (moments : List (Action × Server))
    (moment : Action × Server) : input.lived c past (moments ++ [moment]) =
      input.lived c past moments ++ ((Tick.mk input moment.1 moment.2).occasion c).toList := by
  rw [Input.lived, Input.lived, List.map_append, ← List.append_assoc, history, history, List.filterMap_append]
  congr 1

section Runs

variable {past : List Tick} {c : ConnId}

/-- As long as the run is on time, the deadline fits what has happened. -/
def OnTime (past : List Tick) (input : Input) (c : ConnId) (state : Recorded Server Action) : Prop :=
  Watch.Steady (input.lived c past state.2) →
    Clocked (Watch.after (input.lived c past state.2)) (state.1.conns c).http

/-- Bytes have arrived, and the deadline is not moved yet. -/
def Unmarked (past : List Tick) (input : Input) (env : Env) (c : ConnId) (state : Recorded Server Action) : Prop :=
  Watch.Steady (input.lived c past state.2) →
    (state.1.conns c).http.ping = u32 (Watch.after (input.lived c past state.2)).timeout ∧
      (Watch.after (input.lived c past state.2)).since = env.now state.1.tick ∧
      (1 ≤ (Watch.after (input.lived c past state.2)).timeout →
        u32 (Watch.after (input.lived c past state.2)).timeout ≠ 0 →
        env.now state.1.tick + (Watch.after (input.lived c past state.2)).timeout < 2 ^ 32)

theorem OnTime.step {input : Input} {action : Action} {state : Recorded Server Action}
    (keeps : KeepsTime input c action state.1) (onTime : OnTime past input c state) :
    (recording Action.apply action state).Ends (fun _ => OnTime past input c) fun _ => OnTime past input c := by
  have lived := input.lived_append c past state.2 (action, state.1)
  by_cases steady : Watch.Steady (input.lived c past (state.2 ++ [(action, state.1)]))
  · have now := steady
    rw [lived] at now
    have ends := keeps _ (onTime now.before) now
    rw [← lived] at ends
    exact recording_ends (Ends.mono ends (fun _ _ clocked _ => clocked) fun _ _ clocked _ => clocked)
  · have never : (action.apply state.1).Ends (fun _ t => OnTime past input c (t, state.2 ++ [(action, state.1)]))
        fun _ t => OnTime past input c (t, state.2 ++ [(action, state.1)]) := by
      cases action.apply state.1 with
      | returned t value => exact fun now => absurd now steady
      | thrown t error => exact fun now => absurd now steady
      | fault => trivial
    exact recording_ends never

/-- What keeps the time at each step keeps it as a whole. -/
theorem stays_onTime {α : Type} {input : Input} {routine : Routine α} {guard : Action → Recorded Server Action → Prop}
    {heeded : Action → Server → Prop} (heeds : Routine.Heeds heeded routine)
    (keeps : ∀ action s, heeded action s → KeepsTime input c action s)
    (met : ∀ action state, heeded action state.1 → OnTime past input c state → guard action state) :
    Stays Action.apply guard (OnTime past input c) routine :=
  Program.Heeds.stays heeds fun action state holds onTime =>
    ⟨met action state holds onTime, onTime.step (keeps action state.1 holds)⟩

/-- The deadline is moved at once when bytes arrive. -/
theorem onRecv_onTime (chunk : Bytes) (env : Env) : Tries Action.apply (fun _ _ => True)
    (Unmarked past (.recv c chunk env) env c) (OnTime past (.recv c chunk env) c)
    (OnTime past (.recv c chunk env) c) (Routine.onRecv env c chunk) := by
  have stored : Stays Action.apply (fun _ _ => True) (OnTime past (.recv c chunk env) c)
      (Routine.storeOrParse env (Routine.headerCompleted env c) c chunk) :=
    stays_onTime (Routine.storeOrParse_heeds ((frees_keepsTime _ c).attends c) (completed_keepsTime _ c c env)
      (parses_keepsTime c chunk env c) chunk) (fun _ _ keeps => keeps) fun _ _ _ _ => trivial
  refine leads_get fun s => ?_
  extract_lets ping store
  split
  · refine Tries.bind (leads_perform fun state arrived => ⟨trivial, recording_ends ?_⟩) fun _ => stored
    obtain ⟨arrived, rfl⟩ := arrived
    have unread : (Tick.mk (.recv c chunk env) (.edit c [] fun http =>
        { http with pingTimeout := u32 (env.now state.1.tick + ping) }) state.1).occasion c = none := by
      simp only [Tick.occasion, if_true]
      split
      · rename_i value read
        exact absurd read (Http.headerIn_nil _ value)
      · rfl
    have same := Input.lived_append (.recv c chunk env) c past state.2 (.edit c [] fun http =>
        { http with pingTimeout := u32 (env.now state.1.tick + ping) }, state.1)
    rw [unread, Option.toList_none, List.append_nil] at same
    simp only [Ends_returned, Action.apply, OnTime, same]
    intro steady
    obtain ⟨timeout, since, fits⟩ := arrived steady
    rw [Server.modify_self]
    refine ⟨timeout, fun positive named => ?_⟩
    change _ ≤ (u32 (env.now state.1.tick + (state.1.conns c).http.ping) : Int)
    rw [timeout, u32_deadline positive (fits positive (timeout ▸ named)), since]
  · rename_i unset
    refine Tries.mono stored (fun state arrived steady => ?_) (fun _ onTime => onTime) fun _ onTime => onTime
    obtain ⟨arrived, rfl⟩ := arrived
    exact ⟨(arrived steady).1, fun _ named => absurd named unset⟩

theorem recv_onTime (d : ConnId) (chunk : Bytes) (env : Env) (loop : Nat) :
    Stays Action.apply (fun _ _ => True) (OnTime past (.recv d chunk env) c) (Input.inLoop loop do
      perform (.receive loop chunk)
      Routine.guarded (Routine.onRecv env d chunk) d) := by
  have free : Routine.Attends d (KeepsTime (.recv d chunk env) c) := (frees_keepsTime _ c).attends d
  have retired := (frees_keepsTime (.recv d chunk env) c).plain (.retire d) rfl
  have alone : ∀ {α : Type} {routine : Routine α}, Routine.Heeds (KeepsTime (.recv d chunk env) c) routine →
      Stays Action.apply (fun _ _ => True) (OnTime past (.recv d chunk env) c) routine :=
    fun heeds => stays_onTime heeds (fun _ _ keeps => keeps) fun _ _ _ _ => trivial
  by_cases own : d = c
  · subst own
    have received : Tries Action.apply (fun _ _ => True) (OnTime past (.recv d chunk env) d)
        (Unmarked past (.recv d chunk env) env d) (OnTime past (.recv d chunk env) d)
        (perform (.receive loop chunk)) := by
      refine leads_perform fun state onTime => ⟨trivial, recording_ends fun steady => ?_⟩
      have lived := Input.lived_append (.recv d chunk env) d past state.2 (.receive loop chunk, state.1)
      have happens : (Tick.mk (.recv d chunk env) (.receive loop chunk) state.1).occasion d =
          some (.bytes (env.now state.1.tick)) := if_pos rfl
      rw [happens, Option.toList_some] at lived
      rw [lived] at steady ⊢
      have clocked := onTime steady.before
      rw [Watch.after_append]
      refine ⟨clocked.ping, max_eq_left ?_, fun positive named => steady.fits _ rfl positive named⟩
      exact (le_max_right _ _).trans (Watch.since_le steady.1 rfl)
    have caught : ∀ error, Routine.Heeds (KeepsTime (.recv d chunk env) d)
        (perform (.caught error) >>= fun _ => perform (.shut d)) := fun error =>
      (Routine.free_heeds free rfl rfl).bind fun _ => Routine.free_heeds free rfl rfl
    have read := Tries.catching (@onRecv_onTime past d chunk env) fun error => alone (caught error)
    refine Tries.catching (Tries.bind (alone (Routine.free_heeds free rfl rfl)) fun _ =>
      Tries.bind received fun _ => Tries.bind read fun _ => ?_) fun error => alone (Routine.free_heeds free rfl rfl)
    refine alone (heeds_look fun s => ?_)
    split
    · exact Routine.close_heeds free retired
    · exact heeds_pure _
  · have elsewhere : ∀ (taken : Bytes) (change : Http → Http) (s : Server),
        KeepsTime (.recv d chunk env) c (.edit d taken change) s := by
      intro taken change s
      refine keepsTime_of_same (if_neg own) ?_
      change (Conn.http _).deadline = _
      rw [Server.modify_conns, if_neg (Ne.symm own)]
      rfl
    have received : ∀ s, KeepsTime (.recv d chunk env) c (.receive loop chunk) s :=
      fun s => keepsTime_of_same (if_neg own) rfl
    refine alone (Routine.inLoop_heeds free ((heeds_perform received).bind fun _ => ?_))
    exact Routine.guarded_heeds free retired (Routine.onRecvWith_heeds free (completed_keepsTime _ c d env)
      (parses_keepsTime d chunk env c) (fun s => elsewhere [] _ s) chunk)

/-- Who is answered 408 by the pass waits beyond its deadline. -/
def Answers (past : List Tick) (input : Input) (c : ConnId) (action : Action) (state : Recorded Server Action) :
    Prop :=
  ∀ now i j p time, input = .checkTimeout now → action = .expire i j p time →
    state.1.workerAt i j p = some c → (state.1.conns c).overdue time = true ∧ OnTime past input c state

theorem checkTimeout_onTime (now : Nat) : Stays Action.apply (Answers past (.checkTimeout now) c)
    (OnTime past (.checkTimeout now) c) (Input.inLoop 0 (Routine.checkTimeout now)) := by
  have heeds : Routine.Heeds (fun action s => KeepsTime (.checkTimeout now) c action s ∧
      ∀ i j p time w, action = .expire i j p time → s.workerAt i j p = some w →
        (s.conns w).overdue time = true) (Input.inLoop 0 (Routine.checkTimeout now)) := by
    have plain : ∀ action : Action, action.serves = true → (∀ i j p time, action ≠ .expire i j p time) → ∀ s,
        KeepsTime (.checkTimeout now) c action s ∧ ∀ i j p time w, action = .expire i j p time →
          s.workerAt i j p = some w → (s.conns w).overdue time = true :=
      fun action serves other s => ⟨(frees_keepsTime _ c).plain action serves s,
        fun i j p time _ same => absurd same (other i j p time)⟩
    refine ((heeds_perform (plain _ rfl fun _ _ _ _ => Action.noConfusion)).bind fun _ => ?_).catching
      fun error => heeds_perform (plain _ rfl fun _ _ _ _ => Action.noConfusion)
    refine Routine.checkTimeout_expires ?_
    rintro i j p s ⟨w, found, late⟩
    refine ⟨expire_keepsTime i j p now, fun i' j' p' time v same known => ?_⟩
    cases same
    rw [found] at known
    cases known
    exact late
  refine stays_onTime heeds (fun _ _ keeps => keeps.1) fun action state keeps onTime => ?_
  exact fun _ i j p time _ same found => ⟨keeps.2 i j p time c same found, onTime⟩

theorem accept_keepsTime (c : ConnId) (loop : Nat) (garbage : Garbage) (s : Server) :
    KeepsTime (.accept loop garbage) c (.accept loop garbage) s := by
  by_cases own : s.accepted = c
  · refine keepsTime_of_set .opened (if_pos own) fun occasions clocked fits late => ?_
    change Clocked _ (Conn.http (Function.update s.conns s.accepted (Conn.new loop garbage) c))
    rw [own, Function.update_self]
    exact ⟨rfl, fun positive => absurd (show (1 : Int) ≤ 0 from positive) (by decide)⟩
  · refine keepsTime_of_same (if_neg own) ?_
    change (Conn.http (Function.update s.conns s.accepted (Conn.new loop garbage) c)).deadline = _
    rw [Function.update_of_ne (Ne.symm own)]

/-- An operation keeps the deadline as it has to be. -/
theorem input_onTime (input : Input) (s : Server) :
    Stays Action.apply (Answers past input c) (OnTime past input c) (input.routine s) := by
  have free : Routine.Frees (KeepsTime input c) := frees_keepsTime input c
  have alone : ∀ {routine : Routine Unit}, (∀ now, input ≠ .checkTimeout now) →
      Routine.Heeds (KeepsTime input c) routine →
      Stays Action.apply (Answers past input c) (OnTime past input c) routine :=
    fun other heeds => stays_onTime heeds (fun _ _ keeps => keeps) fun _ _ _ _ now _ _ _ _ same => absurd same (other now)
  cases input with
  | accept loop garbage =>
      exact alone (fun _ => Input.noConfusion) (heeds_perform (accept_keepsTime c loop garbage))
  | recv d chunk env =>
      exact fun state onTime => wp_weaken (recv_onTime d chunk env _ state onTime)
        fun _ _ _ _ _ _ _ _ => Input.noConfusion
  | send d sent =>
      exact alone (fun _ => Input.noConfusion)
        (Routine.inLoop_heeds (free.attends d) (Routine.guarded_heeds (free.attends d) (free.plain (.retire d) rfl)
          (Routine.free_heeds (free.attends d) rfl rfl)))
  | hangup d =>
      exact alone (fun _ => Input.noConfusion) (Routine.inLoop_heeds (free.attends d)
        (Routine.close_heeds (free.attends d) (free.plain (.retire d) rfl)))
  | checkTimeout now => exact checkTimeout_onTime now
  | cleanDeadTasks => exact alone (fun _ => Input.noConfusion) (Routine.cleanDeadTasks_heeds (free.attends 0))
  | deleteConnections loop =>
      exact alone (fun _ => Input.noConfusion)
        (Routine.inLoop_heeds (free.attends 0) (Routine.free_heeds (free.attends 0) rfl rfl))

end Runs

theorem Timeline.onTime {past : List Tick} {s : Server} (timeline : Timeline past s) (c : ConnId)
    (steady : Watch.Steady (history c past)) : Clocked (Watch.after (history c past)) (s.conns c).http := by
  induction timeline with
  | new threads jsonrpc2 version startTime =>
      exact ⟨rfl, fun positive => absurd (show (1 : Int) ≤ 0 from positive) (by decide)⟩
  | @step past s after input _ _ returned ih =>
      have first : OnTime past input c (s, []) := by
        simp only [OnTime, Input.lived, List.map_nil, List.append_nil]
        exact ih
      have ends := outcome_recorded (@input_onTime past c input s (s, []) first)
      change (input.run s).2.Ends _ _ at ends
      rw [returned] at ends
      exact ends steady

/-- A tick that answers 408 answers a worker that waits, and whose time is up. -/
def Tick.Due (c : ConnId) (past : List Tick) (tick : Tick) : Prop :=
  ∀ i j p now, tick.action = .expire i j p now → tick.state.workerAt i j p = some c →
    (tick.state.conns c).status = .workerWaitJob ∧ (tick.state.conns c).closed = false ∧
      (1 ≤ (Watch.after (history c past)).timeout →
        (Watch.after (history c past)).since + (Watch.after (history c past)).timeout ≤ now)

/-- `_check_timeout` answers nobody early whose deadlines all fit into 32 bits. -/
theorem timeouts_due {past : List Tick} {s : Server} (timeline : Timeline past s) (c : ConnId) (now : Nat)
    {before after : List Tick} {tick : Tick} (split : (Input.checkTimeout now).ticks s = before ++ tick :: after)
    (forward : Watch.Forward (history c (past ++ before)))
    (timely : Watch.new.Timely (history c (past ++ before))) : tick.Due c (past ++ before) := by
  obtain ⟨front, back, momentsEq, beforeEq, backEq⟩ := List.map_eq_append_iff.mp split
  obtain ⟨moment, rest, restEq, tickEq, afterEq⟩ := List.map_eq_cons_iff.mp backEq
  have first : OnTime past (.checkTimeout now) c (s, []) := by
    simp only [OnTime, Input.lived, List.map_nil, List.append_nil]
    exact timeline.onTime c
  have answers := moment_recorded (input_onTime (.checkTimeout now) s (s, []) first)
    (momentsEq.trans (congrArg _ restEq))
  intro i j p time expires worker
  subst tickEq
  obtain ⟨late, onTime⟩ := answers now i j p time rfl expires worker
  have clocked := onTime (by
    rw [Input.lived, List.nil_append, beforeEq]
    exact ⟨forward, timely⟩)
  rw [Input.lived, List.nil_append, beforeEq] at clocked
  simp only [Conn.overdue, Bool.and_eq_true, decide_eq_true_eq, Bool.not_eq_true'] at late
  obtain ⟨⟨⟨named, reached⟩, opened⟩, waiting⟩ := late
  refine ⟨waiting, opened, fun positive => ?_⟩
  have due : _ ≤ ((moment.2.conns c).http.pingTimeout : Int) := clocked.due positive named
  omega

/-- The ticks of operations one after another. -/
def ticksAll : List Input → Server → List Tick
  | [], _ => []
  | input :: rest, s =>
      input.ticks s ++
        match (input.run s).2 with
        | .returned after _ => ticksAll rest after
        | _ => []

theorem timeline_afterAll {inputs : List Input} {past : List Tick} {s after : Server}
    (timeline : Timeline past s) (afterEq : afterAll inputs s = some after) :
    Timeline (past ++ ticksAll inputs s) after := by
  induction inputs generalizing past s with
  | nil =>
      cases afterEq
      rw [ticksAll, List.append_nil]
      exact timeline
  | cons input rest ih =>
      rw [afterAll] at afterEq
      split at afterEq
      · rename_i enabled
        split at afterEq
        · rename_i middle _ returned
          rw [ticksAll, returned, ← List.append_assoc]
          exact ih (.step input timeline enabled returned) afterEq
        · cases afterEq
      · cases afterEq

/-- A worker with this timeout that comes at the given time. -/
def worker (now : Nat) (timeout : Bytes) : List Input :=
  [.accept 0 ⟨false, false, false⟩,
    .recv 0 (ascii "GET /a HTTP/1.1\r\nType: get\r\nTimeout: " ++ timeout ++ ascii "\r\n\r\n")
      { atRest with now := fun _ => now }]

theorem occasion_answer {tick : Tick} {c : ConnId} {now : Nat} (answered : tick.occasion c = some (.answer now)) :
    ∃ i j p, tick.action = .expire i j p now ∧ tick.state.workerAt i j p = some c := by
  unfold Tick.occasion at answered
  split at answered
  · split at answered <;> cases answered
  · split at answered <;> cases answered
  · split at answered
    · split at answered <;> cases answered
    · cases answered
  · rename_i actionEq
    split at answered
    · rename_i both
      cases answered
      exact ⟨_, _, _, actionEq, both.1⟩
    · cases answered
  · cases answered

theorem worker_answered {inputs : List Input} {occasions : List Occasion} {late : Nat}
    (ran : (afterAll inputs (Server.new 1 false [] 0)).map (fun s =>
      (history 0 (ticksAll inputs (Server.new 1 false [] 0)),
        ((Input.checkTimeout late).ticks s).map (Tick.occasion 0))) =
      some (occasions, [none, some (.answer late)])) :
    ∃ past s before tick after, Timeline past s ∧ (Input.checkTimeout late).ticks s = before ++ tick :: after ∧
      tick.occasion 0 = some (.answer late) ∧ history 0 (past ++ before) = occasions := by
  obtain ⟨s, sEq, facts⟩ := Option.map_eq_some_iff.mp ran
  rw [Prod.mk.injEq] at facts
  obtain ⟨count, rest, ticksEq, counted, restEq⟩ := List.map_eq_cons_iff.mp facts.2
  obtain ⟨tick, after, restSplit, answered, _⟩ := List.map_eq_cons_iff.mp restEq
  have timeline := timeline_afterAll (.new 1 false [] 0) sEq
  rw [List.nil_append] at timeline
  refine ⟨_, s, [count], tick, after, timeline, by rw [ticksEq, restSplit]; rfl, answered, ?_⟩
  rw [history, List.filterMap_append, List.filterMap_cons, counted]
  simp only [List.filterMap_nil, List.append_nil]
  exact facts.1

/-- A worker that came at 7 with a timeout of five seconds is answered at 12. -/
theorem timeouts_due_five : ∃ past s before tick after, Timeline past s ∧
    (Input.checkTimeout 12).ticks s = before ++ tick :: after ∧ tick.occasion 0 = some (.answer 12) ∧
      tick.Due 0 (past ++ before) := by
  have ran : (afterAll (worker 7 (ascii "5")) (Server.new 1 false [] 0)).map (fun s =>
      (history 0 (ticksAll (worker 7 (ascii "5")) (Server.new 1 false [] 0)),
        ((Input.checkTimeout 12).ticks s).map (Tick.occasion 0))) =
      some ([.opened, .bytes 7, .header 7 5], [none, some (.answer 12)]) := by
    decide +kernel
  obtain ⟨past, s, before, tick, after, timeline, split, answered, historyEq⟩ := worker_answered ran
  refine ⟨past, s, before, tick, after, timeline, split, answered, ?_⟩
  exact timeouts_due timeline 0 12 split (by rw [historyEq]; decide) (by rw [historyEq]; decide)

/-- With a timeout of 2^32 + 1 seconds a worker that came at 7 is answered at 8. -/
theorem timeouts_early : ¬ ∀ (past : List Tick) (s : Server), Timeline past s →
    ∀ (c : ConnId) (now : Nat) (before after : List Tick) (tick : Tick),
      (Input.checkTimeout now).ticks s = before ++ tick :: after →
      Watch.Forward (history c (past ++ before)) → tick.Due c (past ++ before) := by
  intro always
  have ran : (afterAll (worker 7 (ascii "4294967297")) (Server.new 1 false [] 0)).map (fun s =>
      (history 0 (ticksAll (worker 7 (ascii "4294967297")) (Server.new 1 false [] 0)),
        ((Input.checkTimeout 8).ticks s).map (Tick.occasion 0))) =
      some ([.opened, .bytes 7, .header 7 4294967297], [none, some (.answer 8)]) := by
    decide +kernel
  obtain ⟨past, s, before, tick, after, timeline, split, answered, historyEq⟩ := worker_answered ran
  obtain ⟨i, j, p, expires, waits⟩ := occasion_answer answered
  have due := (always past s timeline 0 8 before after tick split (by rw [historyEq]; decide) i j p 8 expires
    waits).2.2
  rw [historyEq] at due
  exact absurd (due (by decide)) (by decide)

end Ijson
