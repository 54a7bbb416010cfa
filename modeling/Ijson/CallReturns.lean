/-
When a call to a queue with a waiting worker returns.

The worker is found where the search stops, and is handed the request when its
reference is there to be given up.
-/

import Ijson.TaskSelection
import Ijson.WorkerScan

namespace Ijson

open Program

namespace Server

variable {s t : Server} {c w : ConnId} {i j p : Nat} {name required : Bytes}

/-- The entries whose references are given up: the stale ones and the worker that is found. -/
def yielded (s : Server) (required : Bytes) (entries : List ConnId) : List ConnId :=
  (s.searched required entries).filter (s.wanted required)

theorem yielded_eq (s : Server) (required : Bytes) (entries : List ConnId) :
    s.yielded required entries = s.dropped required entries ++ (entries.find? (s.suits required)).toList := by
  unfold yielded dropped
  induction entries with
  | nil => rfl
  | cons w entries ih =>
      rw [searched, List.find?_cons]
      cases idles : s.idle w with
      | true =>
          cases mine : s.wanted required w with
          | true =>
              have suits : s.suits required w = true := by rw [Server.suits, idles, mine, Bool.and_true]
              simp [suits, drops, mine, idles]
          | false =>
              have suits : s.suits required w = false := by rw [Server.suits, mine, Bool.and_false]
              simpa [suits, drops, mine] using ih
      | false =>
          have suits : s.suits required w = false := by rw [Server.suits, idles, Bool.false_and]
          cases mine : s.wanted required w <;> simpa [suits, drops, mine, idles] using ih

theorem find_pick (s : Server) (i : Nat) (required : Bytes) (loops : List Nat) :
    (loops.flatMap (s.workersIn i)).find? (s.suits required) = (s.pick i required loops).map Prod.snd := by
  unfold pick
  induction loops with
  | nil => rfl
  | cons j loops ih =>
      rw [List.flatMap_cons, List.find?_append, List.filterMap_cons]
      cases (s.workersIn i j).find? (s.suits required) with
      | some w => rfl
      | none => simpa using ih

theorem pick_suits {loops : List Nat} (picked : s.pick i required loops = some (j, w)) :
    s.suits required w = true ∧ j ∈ loops ∧ w ∈ s.workersIn i j := by
  have member := List.mem_of_mem_head? (Option.mem_def.mpr picked)
  obtain ⟨k, inLoops, isFirst⟩ := List.mem_filterMap.mp member
  obtain ⟨x, found, same⟩ := Option.map_eq_some_iff.mp isFirst
  cases same
  exact ⟨List.find?_some found, inLoops, List.mem_of_find?_eq_some found⟩

/-! ### The worker gets the request -/

section Handed

variable (found : t.workerAt i j p = some w)

include found

theorem dropEntry_returns {next : Server → Result} (returns : ∀ v : Server,
    (∀ x, ∃ link, v.conns x = { t.conns x with link := link }) → v.generated = t.generated →
      ∃ u, next v = .returned u ()) :
    (∃ u, (t.dropEntry i j p).andThen next = .returned u ()) ↔ 0 < (t.conns w).link := by
  simp only [dropEntry, found]
  rw [unlink_eq, eraseWorker_conns]
  by_cases positive : 0 < (t.conns w).link
  · rw [if_pos positive]
    refine iff_of_true (returns _ (fun x => ?_) ?_) positive
    · rw [unlinked_conns, eraseWorker_conns]
      exact ⟨_, rfl⟩
    · rw [eraseWorker_eq]
      rfl
  · rw [if_neg positive]
    refine iff_of_false ?_ positive
    rintro ⟨u, same⟩
    cases same

variable (opened : (t.conns w).closed = false)

include opened

theorem handAsync_returns : (∃ u, t.handAsync c i j p name = .returned u ()) ↔ 0 < (t.conns w).link := by
  simp only [handAsync, found]
  refine dropEntry_returns found fun v conns _ => (send_returns fun u => ⟨_, rfl⟩).mpr ?_
  obtain ⟨link, conn⟩ := conns w
  rw [modify_self, afterAsync, conn]
  exact opened

omit opened in
theorem handAsync_closed (name : Bytes) : (t.handAsync c i j p name).Ends
    (fun _ u => ∀ x, (u.conns x).closed = (t.conns x).closed) fun _ _ => True := by
  simp only [handAsync, dropEntry, found, Ends_andThen]
  refine unlink_ends (fun _ => send_ends (fun _ x => ?_) fun _ => trivial) fun _ => trivial
  simp only [note_conns, sent]
  rw [modify_closed, modify_closed, unlinked_conns, eraseWorker_conns]
  · exact fun _ => rfl
  · exact fun _ => rfl

theorem handNoid_returns : (∃ u, t.handNoid c i j p name = .returned u ()) ↔ 0 < (t.conns w).link := by
  simp only [handNoid, found]
  refine dropEntry_returns found fun v conns _ => (send_returns fun u => ⟨_, rfl⟩).mpr ?_
  obtain ⟨link, conn⟩ := conns w
  rw [modify_self]
  simp only
  rw [modify_closed, link_conns, modify_self, conn]
  · exact opened
  · exact fun _ => rfl

theorem handId_returns {random : Nat} {http : Http} {made : Bool}
    (named : (t.conns c).http.requestId t.generated random = .ok (http, made)) :
    (∃ u, t.handId c i j p name random = .returned u ()) ↔ 0 < (t.conns w).link := by
  simp only [handId, found]
  refine dropEntry_returns found fun v conns generated => ?_
  obtain ⟨link, client⟩ := conns c
  have again : (v.conns c).http.requestId v.generated random = .ok (http, made) := by
    rw [client, generated]
    exact named
  obtain ⟨after, taken, afterEq⟩ := takeId_named again
  simp only [taken]
  refine (send_returns fun u => ⟨_, rfl⟩).mpr ?_
  rw [claimed_closed, afterEq, modify_closed]
  · obtain ⟨link, conn⟩ := conns w
    change (v.conns w).closed = false
    rw [conn]
    exact opened
  · exact fun _ => rfl

end Handed

end Server

namespace Routine

variable {env : Env} {s t : Server} {d w : ConnId} {i j : Nat} {name : Bytes}

/-- The entries a request of `d` may come to. -/
def entriesFor (s : Server) (i : Nat) (d : ConnId) : List ConnId :=
  (loopOrder (s.conns d).nloop s.threads).flatMap (s.workersIn i)

/-- No deleted connection is read on the way to the worker that suits, and the
references that are given up are there. -/
structure Searchable (s : Server) (i : Nat) (d : ConnId) : Prop where
  kept : s.Kept (s.searched (s.conns d).http.requiredWorker (entriesFor s i d))
  linked : s.Unlinkable (s.yielded (s.conns d).http.requiredWorker (entriesFor s i d))

/-- The id of the request can be read, and is not in use. -/
def Named (env : Env) (s : Server) (d : ConnId) : Prop :=
  (s.conns d).http.noResponse = true ∨ ∃ http made,
    (s.conns d).http.requestId s.generated (env.random s.generated) = .ok (http, made) ∧ s.waiting http.id = none

theorem guardLine_free {α : Type} {rest : Unit → Routine α} {line : QueueLine} (live : s.line i = some line)
    (free : line.locked = false) :
    (guardLine i >>= rest).outcome Action.apply s = (rest ()).outcome Action.apply s := by
  rw [outcome_bind, guardLine, get_outcome, live]
  simp only [free, Bool.false_eq_true, if_false]
  rfl

/-- A request that suits a waiting worker is answered for, or handed over. -/
theorem handing_returned {u : Server} {p : Nat} (found : u.workerAt i j p = some w)
    (opened : (u.conns w).closed = false) (asks : (u.conns d).closed = false) (named : Named env u d) :
    (∃ v, (if (u.conns d).http.noResponse then do
        perform (.handAsync d i j p name)
        perform (.respond d ⟨"200 OK", [], .code 1⟩)
      else handSync env d i j p name : Routine Unit).outcome Action.apply u = .returned v ()) ↔
      0 < (u.conns w).link := by
  cases mode : (u.conns d).http.noResponse with
  | true =>
      simp only [if_true]
      rw [← Server.handAsync_returns (c := d) found opened]
      constructor
      · rintro ⟨v, returned⟩
        obtain ⟨middle, applied, -⟩ := act_returned.mp returned
        exact ⟨middle, applied⟩
      · rintro ⟨middle, applied⟩
        have kept := Server.handAsync_closed (c := d) found name
        rw [applied] at kept
        obtain ⟨v, answered⟩ := (Server.send_returns
          fun u : Server => ⟨u.enter (.answered d), rfl⟩).mpr ((kept d).trans asks)
        exact ⟨v, act_returned.mpr ⟨middle, applied, by rw [outcome_perform]; exact answered⟩⟩
  | false =>
      simp only [Bool.false_eq_true, if_false]
      rw [handSync, get_outcome, found]
      simp only
      cases noid : (u.conns w).noid with
      | true =>
          rw [if_pos rfl, outcome_perform]
          exact Server.handNoid_returns found opened
      | false =>
          obtain ⟨http, made, isNamed, unused⟩ := named.resolve_left (by rw [mode]; exact Bool.false_ne_true)
          obtain ⟨v, taken, -⟩ := Server.takeId_named isNamed
          simp only [Bool.false_eq_true, if_false, taken, unused, Option.isSome_none]
          rw [outcome_perform]
          exact Server.handId_returns found opened isNamed

/-- A call of an open client to a queue in which a worker suits returns exactly
when its deques can be searched. -/
theorem clientRequest_returned_iff {registry : Registry} {line : QueueLine}
    (looked : s.registry.getQueue s.threads name false = .returned registry (some i))
    (live : s.line i = some line) (free : line.locked = false)
    (deques : ∀ j ∈ loopOrder (s.conns d).nloop s.threads, (s.queue i j).isSome = true)
    (asks : (s.conns d).closed = false) (named : Named env s d)
    (suited : s.pick i (s.conns d).http.requiredWorker (loopOrder (s.conns d).nloop s.threads) = some (j, w)) :
    (∃ t, (clientRequest env name d).outcome Action.apply s = .returned t ()) ↔ Searchable s i d := by
  let m := { s with stats := { s.stats with call := s.stats.call + 1 } }
  have same : ∀ x, m.conns x = { s.conns x with link := (m.conns x).link } := fun _ => rfl
  have searches := findWorkerIn_searches (s.conns d).http.requiredWorker (loopOrder (s.conns d).nloop s.threads)
    (nodup_loopOrder _ _) (t := m) deques
  have picks : m.pick i (s.conns d).http.requiredWorker (loopOrder (s.conns d).nloop s.threads) = some (j, w) := by
    rw [← suited, Server.pick, Server.pick, Server.suits_same same]
    rfl
  have entries : (loopOrder (s.conns d).nloop s.threads).flatMap (m.workersIn i) = entriesFor s i d := rfl
  have dropped : m.dropped (s.conns d).http.requiredWorker (entriesFor s i d) =
      s.dropped (s.conns d).http.requiredWorker (entriesFor s i d) := by
    rw [Server.dropped, Server.dropped, Server.searched_same same, Server.drops_same same]
  have yields : s.yielded (s.conns d).http.requiredWorker (entriesFor s i d) =
      s.dropped (s.conns d).http.requiredWorker (entriesFor s i d) ++ [w] := by
    rw [Server.yielded_eq, entriesFor, Server.find_pick, suited]
    rfl
  have searchable : Searchable s i d ↔ (s.Kept (s.searched (s.conns d).http.requiredWorker (entriesFor s i d)) ∧
      s.Unlinkable (s.dropped (s.conns d).http.requiredWorker (entriesFor s i d))) ∧
      0 < ((s.unlinkAll (s.dropped (s.conns d).http.requiredWorker (entriesFor s i d))).conns w).link := by
    rw [and_assoc]
    refine ⟨fun both => ⟨both.kept, ?_⟩, fun both => ⟨both.1, ?_⟩⟩
    · have linked := both.linked
      rw [yields, Server.unlinkable_append] at linked
      exact ⟨linked.1, linked.2.1⟩
    · rw [yields, Server.unlinkable_append]
      exact ⟨both.2.1, both.2.2, trivial⟩
  rw [searchable, clientRequest, perform_outcome (show Action.apply _ s = .returned m () from rfl), get_outcome]
  have lookedNow : m.registry.getQueue m.threads name false = .returned registry (some i) := looked
  simp only [lookedNow]
  rw [guardLine_free (show m.line i = some line from live) free]
  change (∃ t, Program.outcome Action.apply (findWorkerIn i (s.conns d).http.requiredWorker
    (loopOrder (s.conns d).nloop s.threads) >>= _) m = .returned t ()) ↔ _
  rw [outcome_bind]
  rw [Searches, entries, picks, dropped, Server.searched_same same, Server.kept_same same,
    Server.unlinkable_congr (s := s) (t := m) fun _ => rfl] at searches
  rcases searches with ⟨alive, enough, u, place, ran, behind, stands⟩ | ⟨failed, ran⟩
  · cases place with
    | none => cases stands
    | some place =>
        obtain ⟨l, p⟩ := place
        have found : u.workerAt i l p = some w := by
          rw [picked, Option.map_some, Option.map_some, Option.some.injEq, Prod.mk.injEq] at stands
          exact stands.2
        have conns : ∀ x, u.conns x = { s.conns x with link := (u.conns x).link } := behind.same
        have opened : (u.conns w).closed = false := by
          have suits := (Server.pick_suits suited).1
          rw [Server.suits, Server.idle, Bool.and_eq_true, Bool.and_eq_true, Bool.not_eq_true'] at suits
          rw [conns w]
          exact suits.1.1
        have asksNow : (u.conns d).closed = false := by rw [conns d]; exact asks
        have namedNow : Named env u d := by
          have culled := outcome_ends (findWorkerIn_culled (s.conns d).http.requiredWorker
            (loopOrder (s.conns d).nloop s.threads) (Server.Culled.refl m i))
          rw [ran] at culled
          rw [Named, conns d, culled.1.generated]
          simp only [Server.waiting, culled.1.waitResponse]
          exact named
        have counted : (u.conns w).link = ((s.unlinkAll
            (s.dropped (s.conns d).http.requiredWorker (entriesFor s i d))).conns w).link := by
          rw [behind.conns, Server.unlinkAll_conns, Server.unlinkAll_conns]
        rw [ran, and_iff_right ⟨alive, enough⟩, ← counted, ← handing_returned found opened asksNow namedNow, conns d]
        rfl
  · refine iff_of_false ?_ fun both => failed both.1
    rintro ⟨t, returned⟩
    cases missed : (findWorkerIn i (s.conns d).http.requiredWorker
        (loopOrder (s.conns d).nloop s.threads)).outcome Action.apply m with
    | returned v value => exact ran v value missed
    | thrown v error =>
        rw [missed] at returned
        cases returned
    | fault =>
        rw [missed] at returned
        cases returned

end Routine

end Ijson
