/-
The disconnect of a connection that waits as a client.

`on_disconnect` looks the id text of the connection up in `wait_response` and
erases what it finds.  The entry may be that of another connection: clients
choose their ids, and a client that is still queued has no entry of its own.
-/

import Ijson.Effects
import Ijson.Machine

namespace Ijson

open Program

/-- No action is forbidden. -/
abbrev unchecked (_ : Action) (_ : Server) : Prop := True

/-- What belongs to other connections than `c` is as it was. -/
structure Spared (c : ConnId) (s t : Server) : Prop where
  entry : ∀ id d, d ≠ c → (t.waiting id = some d ↔ s.waiting id = some d)
  status : ∀ d, d ≠ c → (t.conns d).status = (s.conns d).status
  link : ∀ d, d ≠ c → (t.conns d).link = (s.conns d).link
  answer : ∀ d, d ≠ c → (t.conns d).sendBuffer = (s.conns d).sendBuffer ∧
    (t.conns d).directMessage = (s.conns d).directMessage ∧ (t.conns d).writing = (s.conns d).writing

/-- Nobody else is waiting under the id of `c`. -/
def Unshared (c : ConnId) (s : Server) : Prop :=
  ∀ d, s.waiting (s.conns c).http.id = some d → d = c

/-- The id of `c`, if it has one, is its own; and `c` holds no client, as
`HTTP_START` sees to for a connection that goes on to wait as one. -/
structure Alone (c : ConnId) (s : Server) : Prop where
  id : (s.conns c).http.id ≠ [] → Unshared c s
  client : (s.conns c).failOnDisconnect = true → (s.conns c).noid = false →
    ∀ d, (s.conns c).client = some d → d = c ∧ Unshared c s

/-- The state in the course of `on_disconnect`: other connections are as they
were, the request of `c` too, and `wait_response` has the given entries. -/
structure Parted (c : ConnId) (entries : List (Bytes × ConnId)) (s t : Server) : Prop where
  entries : t.waitResponse = entries
  others : ∀ d, d ≠ c → t.conns d = s.conns d
  http : (t.conns c).http = (s.conns c).http
  client : (t.conns c).client = (s.conns c).client

namespace Parted

variable {c : ConnId} {entries : List (Bytes × ConnId)} {s t : Server}

theorem refl (c : ConnId) (s : Server) : Parted c s.waitResponse s s :=
  ⟨rfl, fun _ _ => rfl, rfl, rfl⟩

/-- Changes of `c` that leave its request and its client. -/
theorem step (parted : Parted c entries s t) {u : Server} {later : List (Bytes × ConnId)}
    (entriesEq : u.waitResponse = later) (others : ∀ d, d ≠ c → u.conns d = t.conns d)
    (http : (u.conns c).http = (t.conns c).http) (client : (u.conns c).client = (t.conns c).client) :
    Parted c later s u :=
  { entries := entriesEq
    others := fun d other => (others d other).trans (parted.others d other)
    http := http.trans parted.http
    client := client.trans parted.client }

theorem spared_iff (parted : Parted c entries s t) :
    Spared c s t ↔ ∀ id d, d ≠ c → (entries.lookup id = some d ↔ s.waiting id = some d) := by
  have waiting : ∀ id, t.waiting id = entries.lookup id := by
    intro id
    rw [← parted.entries]
    rfl
  constructor
  · intro spared id d other
    rw [← waiting]
    exact spared.entry id d other
  · intro kept
    refine ⟨fun id d other => by rw [waiting]; exact kept id d other, fun d other => ?_,
      fun d other => ?_, fun d other => ?_⟩
    · rw [parted.others d other]
    · rw [parted.others d other]
    · rw [parted.others d other]
      exact ⟨rfl, rfl, rfl⟩

end Parted

theorem spared_congr {c : ConnId} {s t u : Server} (entries : u.waitResponse = t.waitResponse)
    (others : ∀ d, d ≠ c → u.conns d = t.conns d) : Spared c s u ↔ Spared c s t := by
  have waiting : ∀ id, u.waiting id = t.waiting id := fun id =>
    congrArg (fun entries : List (Bytes × ConnId) => entries.lookup id) entries
  constructor
  · intro spared
    refine ⟨fun id d other => ?_, fun d other => ?_, fun d other => ?_, fun d other => ?_⟩
    · rw [← waiting]
      exact spared.entry id d other
    · rw [← others d other]
      exact spared.status d other
    · rw [← others d other]
      exact spared.link d other
    · rw [← others d other]
      exact spared.answer d other
  · intro spared
    refine ⟨fun id d other => ?_, fun d other => ?_, fun d other => ?_, fun d other => ?_⟩
    · rw [waiting]
      exact spared.entry id d other
    · rw [others d other]
      exact spared.status d other
    · rw [others d other]
      exact spared.link d other
    · rw [others d other]
      exact spared.answer d other

theorem erased_kept_iff {c : ConnId} {s : Server} :
    (∀ id d, d ≠ c → ((s.waitResponse.filter (·.1 ≠ (s.conns c).http.id)).lookup id = some d ↔
      s.waiting id = some d)) ↔ Unshared c s := by
  constructor
  · intro kept d waiting
    by_cases same : d = c
    · exact same
    · have entry := (kept _ d same).mpr waiting
      rw [lookup_filter_ne, if_pos rfl] at entry
      cases entry
  · intro unshared id d other
    rw [lookup_filter_ne]
    by_cases own : id = (s.conns c).http.id
    · subst own
      rw [if_pos rfl]
      exact ⟨fun absent => (by cases absent), fun waiting => absurd (unshared d waiting) other⟩
    · rw [if_neg own]
      exact Iff.rfl

/-! ### The actions of `on_disconnect` -/

namespace Server

variable {c : ConnId} {entries : List (Bytes × ConnId)} {s t : Server}

theorem unlinked_parted (parted : Parted c entries s t) : Parted c entries s (t.unlinked c) := by
  refine parted.step parted.entries (fun d other => ?_) ?_ ?_
  · rw [unlinked_conns, if_neg other]
  · rw [unlinked_conns]
  · rw [unlinked_conns]

theorem unlink_parted (parted : Parted c entries s t) :
    (t.unlink c).Ends (fun _ u => Parted c entries s u) fun _ u => Parted c entries s u :=
  unlink_ends (fun _ => unlinked_parted parted) fun _ => unlinked_parted parted

theorem leaveList_parted (parted : Parted c entries s t) :
    (t.leaveList c).Ends (fun _ u => Parted c entries s u) fun _ u => Parted c entries s u := by
  unfold leaveList
  cases (t.conns c).workerItem with
  | none => trivial
  | some i =>
      simp only
      cases t.line i with
      | none => trivial
      | some line =>
          simp only [Ends_andThen]
          apply Ends_noexcept
          have listed : Parted c entries s
              (t.setLine i { line with workers := line.workers.erase c }) :=
            parted.step parted.entries (fun _ _ => rfl) rfl rfl
          refine Ends.mono (unlink_parted listed) (fun _ u left => ?_) fun _ _ _ => trivial
          refine left.step left.entries (fun d other => ?_) ?_ ?_
          · rw [modify_conns, if_neg other]
          · rw [modify_self]
          · rw [modify_self]

theorem unlinkDirects_parted (parted : Parted c entries s t) (messages : List Nat) :
    (t.unlinkDirects messages).Ends (fun _ u => Parted c entries s u) fun _ u =>
      Parted c entries s u := by
  induction messages generalizing t with
  | nil => exact parted
  | cons d rest ih =>
      rw [unlinkDirects, Ends_andThen]
      unfold unlinkDirect
      cases freed : (t.direct d).freed with
      | true =>
          simp only [freed, ↓reduceIte]
          trivial
      | false =>
          simp only [freed, Bool.false_eq_true, ↓reduceIte]
          exact ih (parted.step parted.entries (fun _ _ => rfl) rfl rfl)

theorem dropDirects_parted (parted : Parted c entries s t) :
    (t.dropDirects c).Ends (fun _ u => Parted c entries s u) fun _ u => Parted c entries s u := by
  unfold dropDirects
  apply unlinkDirects_parted
  refine parted.step parted.entries (fun d other => ?_) ?_ ?_
  · rw [modify_conns, if_neg other]
  · rw [modify_self]
  · rw [modify_self]

theorem eraseOwn_parted (parted : Parted c s.waitResponse s t) :
    (t.eraseOwn c).Ends
      (fun _ u => Parted c (s.waitResponse.filter (·.1 ≠ (s.conns c).http.id)) s u)
      fun _ u => Parted c (s.waitResponse.filter (·.1 ≠ (s.conns c).http.id)) s u := by
  unfold eraseOwn
  apply unlink_parted
  refine parted.step ?_ (fun _ _ => rfl) rfl rfl
  rw [← parted.entries, ← parted.http]
  rfl

/-- The client a result without a worker is given to; nobody else changes. -/
structure Refused (id : Bytes) (e : ConnId) (t u : Server) : Prop where
  entries : u.waitResponse = t.waitResponse.filter (·.1 ≠ id)
  others : ∀ d, d ≠ e → u.conns d = t.conns d
  http : (u.conns e).http = (t.conns e).http
  client : (u.conns e).client = (t.conns e).client
  link : (u.conns e).link < (t.conns e).link

/-- A change of the client that leaves its request, client and count. -/
theorem Refused.modify {id : Bytes} {e : ConnId} {t u : Server} (refused : Refused id e t u)
    (change : Conn → Conn) (keeps : ∀ conn, (change conn).http = conn.http ∧
      (change conn).client = conn.client ∧ (change conn).link = conn.link) :
    Refused id e t (u.modify e change) := by
  refine ⟨refused.entries, fun d other => ?_, ?_, ?_, ?_⟩
  · rw [modify_conns, if_neg other]
    exact refused.others d other
  · rw [modify_self, (keeps _).1]
    exact refused.http
  · rw [modify_self, (keeps _).2.1]
    exact refused.client
  · rw [modify_self, (keeps _).2.2]
    exact refused.link

theorem Refused.note {id : Bytes} {e : ConnId} {t u : Server} (refused : Refused id e t u)
    (event : Event) : Refused id e t (u.note event) :=
  ⟨refused.entries, refused.others, refused.http, refused.client, refused.link⟩

theorem settle_refused {id : Bytes} {e : ConnId} (waiting : t.waiting id = some e) :
    (t.settle id none).Ends (fun _ u => Refused id e t u) fun _ u => Refused id e t u := by
  have unlinked : Refused id e t ((t.eraseWait id).unlinked e) := by
    refine ⟨rfl, fun d other => ?_, ?_, ?_, ?_⟩
    · rw [unlinked_conns, if_neg other]
      rfl
    · rw [unlinked_conns]
      rfl
    · rw [unlinked_conns]
      rfl
    · rw [unlinked_conns, if_pos rfl]
      exact Int.sub_lt_self _ (by decide)
  unfold settle
  rw [waiting]
  simp only [Ends_andThen]
  refine unlink_ends (fun _ => ?_) fun _ => unlinked
  split
  · exact unlinked
  · rw [Ends_andThen]
    refine send_ends (fun _ => ?_) fun _ => ?_
    · refine Refused.modify (Refused.note (unlinked.modify _ ?_) _) _ ?_
      · exact fun _ => ⟨rfl, rfl, rfl⟩
      · exact fun _ => ⟨rfl, rfl, rfl⟩
    · exact unlinked.modify _ fun _ => ⟨rfl, rfl, rfl⟩

theorem releaseClient_takes {d : ConnId} (client : (t.conns c).client = some d) :
    (t.releaseClient c).Ends (fun _ u => u.waitResponse = t.waitResponse ∧
      (∀ e, e ≠ c → e ≠ d → u.conns e = t.conns e) ∧
      (d ≠ c → (u.conns d).link < (t.conns d).link)) fun _ u => u.waitResponse = t.waitResponse ∧
      ∀ e, e ≠ d → u.conns e = t.conns e := by
  unfold releaseClient
  rw [client]
  simp only [Ends_andThen]
  refine unlink_ends (fun _ => ⟨rfl, fun e own other => ?_, fun other => ?_⟩)
    fun _ => ⟨rfl, fun e other => ?_⟩
  · rw [modify_conns, if_neg own, unlinked_conns, if_neg other]
  · rw [modify_conns, if_neg other, unlinked_conns, if_pos rfl]
    exact Int.sub_lt_self _ (by decide)
  · rw [unlinked_conns, if_neg other]

end Server

/-! ### The whole of `on_disconnect` -/

/-- The entries when the one under the id of `c` has been taken out. -/
structure Erased (c : ConnId) (s : Server) (entries : List (Bytes × ConnId)) : Prop where
  kept : (∀ id d, d ≠ c → (entries.lookup id = some d ↔ s.waiting id = some d)) ↔
    ((s.conns c).http.id ≠ [] → Unshared c s)
  free : (s.conns c).http.id ≠ [] → entries.lookup (s.conns c).http.id = none
  same : (s.conns c).http.id = [] → entries = s.waitResponse

theorem erased_filter {c : ConnId} {s : Server} (named : (s.conns c).http.id ≠ []) :
    Erased c s (s.waitResponse.filter (·.1 ≠ (s.conns c).http.id)) :=
  { kept := erased_kept_iff.trans ⟨fun unshared _ => unshared, fun unshared => unshared named⟩
    free := fun _ => by rw [lookup_filter_ne, if_pos rfl]
    same := fun nothing => absurd nothing named }

theorem erased_none {c : ConnId} {s : Server}
    (absent : (s.conns c).http.id = [] ∨ s.waiting (s.conns c).http.id = none) :
    Erased c s s.waitResponse := by
  refine ⟨⟨fun _ named d waiting => ?_, fun _ id d _ => Iff.rfl⟩, fun named => ?_, fun _ => rfl⟩
  · rw [absent.resolve_left named] at waiting
    cases waiting
  · exact absent.resolve_left named

namespace Routine

variable {c : ConnId} {s t : Server} {entries : List (Bytes × ConnId)}

theorem use_wp {guard : Action → Server → Prop} {Q : Conn → Server → Prop} {E : Exc → Server → Prop}
    (d : ConnId) (holds : Q (t.conns d) t) : (use d).wp Action.apply guard Q E t := by
  unfold use
  rw [wp_bind, wp_get]
  by_cases freed : (t.conns d).freed = true
  · simp only [if_pos freed]
    trivial
  · simp only [if_neg freed]
    exact holds

/-- How `on_disconnect` may end: other connections are spared if and only if
`c` stands alone. -/
abbrev Parts (c : ConnId) (s : Server) (routine : Routine Unit) (t : Server) : Prop :=
  routine.wp Action.apply unchecked (fun _ u => Spared c s u ↔ Alone c s)
    (fun _ u => Alone c s → Spared c s u) t

theorem spared_iff_alone (parted : Parted c entries s t) (erased : Erased c s entries)
    (idle : (s.conns c).failOnDisconnect = true → (s.conns c).noid = false →
      (s.conns c).client = none) : Spared c s t ↔ Alone c s := by
  rw [parted.spared_iff, erased.kept]
  constructor
  · intro unshared
    refine ⟨unshared, fun flag mode d client => ?_⟩
    rw [idle flag mode] at client
    cases client
  · exact Alone.id

/-- A worker's `503` to the client it holds. -/
abbrev failing (c d : ConnId) : Routine Unit := do
  let client ← use d
  let _ ← workerResult client.http.id none
  perform (.releaseClient c)

/-- A client other than `c` is at least unlinked. -/
theorem failing_other {d : ConnId} (other : d ≠ c) (client : (t.conns c).client = some d) :
    (failing c d).wp Action.apply unchecked (fun _ u => (u.conns d).link < (t.conns d).link)
      (fun _ _ => True) t := by
  have released : ∀ u : Server, (u.conns c).client = some d → (u.conns d).link ≤ (t.conns d).link →
      (perform (.releaseClient c) : Routine Unit).wp Action.apply unchecked
        (fun _ v => (v.conns d).link < (t.conns d).link) (fun _ _ => True) u := by
    intro u held count
    rw [wp_perform]
    refine ⟨trivial, Ends.mono (Server.releaseClient_takes held) (fun _ v after => ?_)
      fun _ _ _ => trivial⟩
    exact Int.lt_of_lt_of_le (after.2.2 other) count
  rw [wp_bind]
  apply use_wp
  rw [wp_bind]
  unfold workerResult
  rw [wp_bind, wp_get]
  cases waiting : t.waiting (t.conns d).http.id with
  | none => exact released t client (Int.le_refl _)
  | some e =>
      simp only [wp_bind]
      apply use_wp
      rw [wp_perform]
      refine ⟨trivial, Ends.mono (Server.settle_refused waiting) (fun _ u refused => ?_)
        fun _ _ _ => trivial⟩
      have held : (u.conns c).client = (t.conns c).client := by
        by_cases same : c = e
        · rw [same]
          exact refused.client
        · rw [refused.others c same]
      have count : (u.conns d).link ≤ (t.conns d).link := by
        by_cases same : d = e
        · rw [same]
          exact Int.le_of_lt refused.link
        · rw [refused.others d same]
      exact released u (held.trans client) count

/-- A connection that holds itself fails what waits under its own id. -/
theorem failing_self (parted : Parted c entries s t) (erased : Erased c s entries)
    (client : (s.conns c).client = some c) :
    (failing c c).wp Action.apply unchecked (fun _ u => Spared c s u ↔ Unshared c s)
      (fun _ u => Unshared c s → Spared c s u) t := by
  have released : ∀ u : Server, (u.conns c).client = some c → (Spared c s u ↔ Unshared c s) →
      (perform (.releaseClient c) : Routine Unit).wp Action.apply unchecked
        (fun _ v => Spared c s v ↔ Unshared c s) (fun _ v => Unshared c s → Spared c s v) u := by
    intro u held spared
    rw [wp_perform]
    refine ⟨trivial, Ends.mono (Server.releaseClient_takes held) (fun _ v after => ?_)
      fun _ v after unshared => ?_⟩
    · exact (spared_congr after.1 fun e other => after.2.1 e other other).trans spared
    · exact (spared_congr after.1 after.2).mpr (spared.mpr unshared)
  have own : (t.conns c).client = some c := parted.client.trans client
  have waitingEq : t.waiting (t.conns c).http.id = entries.lookup (s.conns c).http.id := by
    rw [parted.http, ← parted.entries]
    rfl
  rw [wp_bind]
  apply use_wp
  rw [wp_bind]
  unfold workerResult
  rw [wp_bind, wp_get]
  cases waiting : t.waiting (t.conns c).http.id with
  | none =>
      refine released t own ?_
      rw [parted.spared_iff, erased.kept]
      refine ⟨fun unshared => ?_, fun unshared _ => unshared⟩
      by_cases named : (s.conns c).http.id = []
      · intro d found
        rw [waitingEq, erased.same named] at waiting
        exact absurd (waiting.symm.trans found) (by simp)
      · exact unshared named
  | some e =>
      simp only [wp_bind]
      apply use_wp
      rw [wp_perform]
      have named : (s.conns c).http.id = [] := by
        by_contra named
        rw [waitingEq, erased.free named] at waiting
        cases waiting
      have found : s.waiting (s.conns c).http.id = some e := by
        rw [waitingEq, erased.same named] at waiting
        exact waiting
      have filtered : ∀ u : Server, Server.Refused (t.conns c).http.id e t u →
          u.waitResponse = s.waitResponse.filter (·.1 ≠ (s.conns c).http.id) := by
        intro u refused
        rw [refused.entries, parted.entries, erased.same named, parted.http]
      have goal : ∀ u : Server, Server.Refused (t.conns c).http.id e t u →
          (Spared c s u ↔ Unshared c s) := by
        intro u refused
        by_cases same : e = c
        · subst same
          have after := parted.step (filtered u refused) refused.others refused.http refused.client
          exact after.spared_iff.trans erased_kept_iff
        · constructor
          · intro spared
            have entry := (spared.entry _ e same).mpr found
            rw [Server.waiting, filtered u refused, lookup_filter_ne, if_pos rfl] at entry
            cases entry
          · intro unshared
            exact absurd (unshared e found) same
      refine ⟨trivial, Ends.mono (Server.settle_refused waiting) (fun _ u refused => ?_)
        fun _ u refused unshared => (goal u refused).mpr unshared⟩
      have held : (u.conns c).client = (t.conns c).client := by
        by_cases same : c = e
        · rw [same]
          exact refused.client
        · rw [refused.others c same]
      exact released u (held.trans own) (goal u refused)

/-- `on_disconnect` behind the erasure; the tests read the state at its start. -/
theorem ending_parts (waits : (s.conns c).status = .clientWaitResult) (parted : Parted c entries s t)
    (erased : Erased c s entries) : Parts c s (do
      if !(s.conns c).failOnDisconnect then return
      if (s.conns c).noid then
        if (s.conns c).status = .workerWaitResult then
          match (s.conns c).client with
          | none => perform (.failNoid c)
          | some d =>
              let _ ← use d
              perform (.failNoid c)
        else if (s.conns c).client.isSome then throw (.exception "Client is linked to pending worker")
      else
        match (s.conns c).client with
        | none => return
        | some d => failing c d) t := by
  cases flag : (s.conns c).failOnDisconnect with
  | false =>
      refine spared_iff_alone parted erased fun on => ?_
      rw [flag] at on
      cases on
  | true =>
      have idle : (s.conns c).noid = true → (Spared c s t ↔ Alone c s) := by
        intro mode
        refine spared_iff_alone parted erased fun _ off => ?_
        rw [mode] at off
        cases off
      cases mode : (s.conns c).noid with
      | true =>
          simp only [Bool.not_true, Bool.false_eq_true, ↓reduceIte, waits, reduceCtorEq]
          split
          · exact (idle mode).mpr
          · exact idle mode
      | false =>
          simp only [Bool.not_true, Bool.false_eq_true, ↓reduceIte]
          cases client : (s.conns c).client with
          | none => exact spared_iff_alone parted erased fun _ _ => client
          | some d =>
              by_cases same : d = c
              · subst same
                have alone : Unshared d s ↔ Alone d s := by
                  constructor
                  · intro unshared
                    refine ⟨fun _ => unshared, fun _ _ e held => ?_⟩
                    rw [client, Option.some.injEq] at held
                    exact ⟨held.symm, unshared⟩
                  · exact fun alone => (alone.client flag mode d client).2
                exact wp_mono (failing_self parted erased client)
                  (fun _ u spared => spared.trans alone) fun _ u spared held => spared (alone.mpr held)
              · have held : (t.conns c).client = some d := parted.client.trans client
                have shared : ¬ Alone c s := fun alone => same (alone.client flag mode d client).1
                refine wp_mono (failing_other same held) (fun _ u less => ?_)
                  fun _ u _ alone => absurd alone shared
                refine ⟨fun spared => ?_, fun alone => absurd alone shared⟩
                rw [spared.link d same, parted.others d same] at less
                exact absurd less (Int.lt_irrefl _)

/-- For every state and every connection that waits as a client: its disconnect
leaves the others alone if and only if no other connection waits under its id. -/
theorem disconnect_spares (s : Server) (c : ConnId) (waits : (s.conns c).status = .clientWaitResult) :
    ((onDisconnect c).outcome Action.apply s).Ends (fun _ t => Spared c s t ↔ Alone c s)
      fun _ t => Alone c s → Spared c s t := by
  refine outcome_ends (?_ : Parts c s (onDisconnect c) s)
  unfold onDisconnect
  rw [Parts, wp_bind, wp_get]
  extract_lets conn ending erasing dropping
  have ended : ∀ u t entries, Parted c entries s t → Erased c s entries → Parts c s (ending u) t :=
    fun _ t entries parted erased => ending_parts waits parted erased
  have weakly : ∀ t, Parted c s.waitResponse s t → Alone c s → Spared c s t := fun t parted _ =>
    parted.spared_iff.mpr fun _ _ _ => Iff.rfl
  have erasedOk : ∀ u t, Parted c s.waitResponse s t → Parts c s (erasing u) t := by
    intro u t parted
    unfold erasing
    split
    · rename_i test
      simp only [Bool.and_eq_true, Bool.not_eq_true', List.isEmpty_eq_false_iff] at test
      have named : (s.conns c).http.id ≠ [] := test.1.2
      rw [Parts, wp_bind, wp_perform]
      refine ⟨trivial, Ends.mono (Server.eraseOwn_parted parted)
        (fun _ v after => ended () v _ after (erased_filter named)) fun _ v after alone => ?_⟩
      exact after.spared_iff.mpr (erased_kept_iff.mpr (alone.id named))
    · rename_i test
      refine ended () t _ parted (erased_none ?_)
      by_cases named : (s.conns c).http.id = []
      · exact .inl named
      · have absent : ¬ (s.waiting (s.conns c).http.id).isSome = true := fun found =>
          test (by simp [conn, waits, named, found])
        exact .inr (Option.not_isSome_iff_eq_none.mp absent)
  have dropped : ∀ u t, Parted c s.waitResponse s t → Parts c s (dropping u) t := by
    intro u t parted
    unfold dropping
    split
    · rw [Parts, wp_bind, wp_perform]
      exact ⟨trivial, Ends.mono (Server.dropDirects_parted parted)
        (fun _ v after => erasedOk () v after) fun _ v after => weakly v after⟩
    · exact erasedOk () t parted
  split
  · rw [wp_bind, wp_perform]
    exact ⟨trivial, Ends.mono (Server.leaveList_parted (Parted.refl c s))
      (fun _ v after => dropped () v after) fun _ v after => weakly v after⟩
  · exact dropped () s (Parted.refl c s)

/-- A worker takes the task of client 1; client 2 is queued under the same id. -/
def sharedId : List Input :=
  [.accept 0 ⟨false, false, false⟩, .accept 0 ⟨false, false, false⟩, .accept 0 ⟨false, false, false⟩,
    .recv 0 (ascii "GET /a HTTP/1.1\r\nType: get\r\n\r\n") atRest,
    .recv 1 (ascii "GET /a HTTP/1.1\r\nId: 7\r\n\r\n") atRest,
    .recv 2 (ascii "GET /a HTTP/1.1\r\nId: 7\r\n\r\n") atRest]

/-- Client `d` waits under the id `7`, and does not when `c` has disconnected. -/
def losesEntry (s : Server) (c d : ConnId) : Bool :=
  decide ((s.conns c).status = .clientWaitResult) && decide (s.waiting (ascii "7") = some d) &&
    match (onDisconnect c).outcome Action.apply s with
    | .returned t _ => decide (t.waiting (ascii "7") = none)
    | _ => false

theorem sharedId_loses :
    (afterAll sharedId (Server.new 1 false [] 0)).map (fun s => losesEntry s 2 1) = some true := by
  decide +kernel

theorem disconnect_spares_queued : ∃ s : Server, (s.conns 2).status = .clientWaitResult ∧
    ((onDisconnect 2).outcome Action.apply s).Ends (fun _ t => Spared 2 s t ↔ Alone 2 s)
      fun _ t => Alone 2 s → Spared 2 s t := by
  obtain ⟨s, _, loses⟩ := Option.map_eq_some_iff.mp sharedId_loses
  simp only [losesEntry, Bool.and_eq_true, decide_eq_true_eq] at loses
  exact ⟨s, loses.1.1, disconnect_spares s 2 loses.1.1⟩

/-- The entry of another client is erased. -/
theorem disconnect_erases_other :
    ¬ ∀ (s : Server) (c : ConnId), Reachable anything s → (s.conns c).status = .clientWaitResult →
      ((onDisconnect c).outcome Action.apply s).Ends (fun _ t => Spared c s t)
        fun _ t => Spared c s t := by
  intro always
  obtain ⟨s, sEq, loses⟩ := Option.map_eq_some_iff.mp sharedId_loses
  simp only [losesEntry, Bool.and_eq_true, decide_eq_true_eq] at loses
  have spared := always s 2 (reachable_afterAll (.new 1 false [] 0) sEq) loses.1.1
  have gone := loses.2
  cases outcomeEq : (onDisconnect 2).outcome Action.apply s with
  | returned t value =>
      rw [outcomeEq] at spared gone
      have kept := (spared.entry (ascii "7") 1 (by decide)).mpr loses.1.2
      rw [of_decide_eq_true gone] at kept
      cases kept
  | thrown t error =>
      rw [outcomeEq] at gone
      cases gone
  | fault =>
      rw [outcomeEq] at gone
      cases gone

end Routine

end Ijson
