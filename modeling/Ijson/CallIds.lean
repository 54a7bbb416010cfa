/-
The id under which a call without one of its own is dispatched.

An `rpc/call` has its body scanned to the end when it is read.  A dispatch by id
asks the same scanner for an id once more, or one that was loaded with `params`
in between.
-/

import Ijson.OptionView
import Ijson.ScannedIds
import Ijson.TaskSelection

namespace Ijson

open Program Routine JsonText

/-! ### A scanner without an id -/

/-- The scans of an object pass no id with a value: they come to the end or to an
empty id. -/
inductive Nameless : Json → Prop
  | ended {json last : Json} (scan : json.scan = .ok (last, false)) : Nameless json
  | empty {json after : Json} (scan : json.scan = .ok (after, true)) (key : after.key = ascii "id")
      (value : after.value = []) : Nameless json
  | passed {json after : Json} (scan : json.scan = .ok (after, true)) (key : after.key ≠ ascii "id")
      (later : Nameless after) : Nameless json

theorem nameless_iff {json : Json} {fuel : Nat} (inside : json.index ≤ json.data.length)
    (enough : json.data.length - json.index < fuel) :
    Nameless json ↔ ∃ left found, Http.scanFor (ascii "id") fuel json = .ok (left, found) ∧ found.getD [] = [] := by
  induction fuel generalizing json with
  | zero => exact absurd enough (Nat.not_lt_zero _)
  | succ fuel ih =>
      cases scan : json.scan with
      | error error =>
          rw [Http.scanFor, scan]
          constructor
          · intro nameless
            cases nameless with
            | ended again =>
                rw [scan] at again
                cases again
            | empty again =>
                rw [scan] at again
                cases again
            | passed again =>
                rw [scan] at again
                cases again
          · rintro ⟨left, found, same, _⟩
            cases same
      | ok result =>
          obtain ⟨after, more⟩ := result
          cases more with
          | false =>
              rw [Http.scanFor, scan]
              exact ⟨fun _ => ⟨after, none, rfl, rfl⟩, fun _ => .ended scan⟩
          | true =>
              obtain ⟨dataEq, moved, bound⟩ := scan_moves scan
              rw [Http.scanFor, scan]
              by_cases key : after.key = ascii "id"
              · simp only [if_pos key]
                constructor
                · intro nameless
                  cases nameless with
                  | ended again =>
                      rw [scan] at again
                      cases again
                  | empty again _ value =>
                      rw [scan] at again
                      cases again
                      exact ⟨after, some after.value, rfl, value⟩
                  | passed again other =>
                      rw [scan] at again
                      cases again
                      exact absurd key other
                · rintro ⟨left, found, same, nothing⟩
                  cases same
                  exact .empty scan key nothing
              · simp only [if_neg key]
                rw [← ih (by rw [dataEq]; exact bound) (by rw [dataEq]; omega)]
                constructor
                · intro nameless
                  cases nameless with
                  | ended again =>
                      rw [scan] at again
                      cases again
                  | empty again same =>
                      rw [scan] at again
                      cases again
                      exact absurd same key
                  | passed again _ later =>
                      rw [scan] at again
                      cases again
                      exact later
                · exact .passed scan key

/-! ### The id of a dispatch -/

/-- A dispatch by id of client `d` takes an id that is generated for it. -/
structure FreshlyNamed (env : Env) (d : ConnId) (t : Server) : Prop where
  taken : ∃ after, t.takeId d (env.random t.generated) =
    some (after, generateId t.generated (env.random t.generated)) ∧ after.generated = t.generated + 1
  asked : ∀ i j p w name, t.workerAt i j p = some w → (t.conns w).noid = false →
    Comes Action.apply (handSync env d i j p name) t []
      (perform (if (t.waiting (generateId t.generated (env.random t.generated))).isSome then
          .undoCollision d i j p (env.random t.generated)
        else .handId d i j p name (env.random t.generated))) t ∧
    t.handed (.handId d i j p name (env.random t.generated)) =
      some (w, ⟨some (generateId t.generated (env.random t.generated)), name, false, (t.conns d).http.body⟩)
  given : ∀ c i j p fuel message, t.messageAt i j p = some message → message.conn = some d →
    t.eligible c message = true → (t.conns d).freed = false → (t.conns c).noid = false →
    Comes Action.apply (findMessage env c i j (fuel + 1) p) t []
      (if (t.waiting (generateId t.generated (env.random t.generated))).isSome then do
          perform (.refuseCollision i j p (env.random t.generated))
          findMessage env c i j fuel p
        else return some p) t ∧
    t.handed (.giveId c i j p (env.random t.generated)) =
      some (c, ⟨some (generateId t.generated (env.random t.generated)), (t.conns d).http.name, false,
        (t.conns d).http.body⟩)

theorem taken_iff {t : Server} {d : ConnId} {random : Nat} (id : (t.conns d).http.id = []) :
    (∃ after, t.takeId d random = some (after, generateId t.generated random) ∧
        after.generated = t.generated + 1) ↔
      ∃ left found, Http.scanFor (ascii "id") ((t.conns d).http.json.data.length + 1) (t.conns d).http.json =
        .ok (left, found) ∧ found.getD [] = [] := by
  unfold Server.takeId Http.requestId
  rw [id]
  cases scan : Http.scanFor (ascii "id") ((t.conns d).http.json.data.length + 1) (t.conns d).http.json with
  | error error =>
      constructor
      · rintro ⟨after, same, _⟩
        cases same
      · rintro ⟨left, found, same, _⟩
        cases same
  | ok result =>
      obtain ⟨left, found⟩ := result
      cases found with
      | none => exact ⟨fun _ => ⟨left, none, rfl, rfl⟩, fun _ => ⟨_, rfl, rfl⟩⟩
      | some value =>
          cases value with
          | nil => exact ⟨fun _ => ⟨left, some [], rfl, rfl⟩, fun _ => ⟨_, rfl, rfl⟩⟩
          | cons a rest =>
              constructor
              · rintro ⟨after, same, more⟩
                have sameAfter := (Prod.mk.inj (Option.some.inj same)).1
                rw [← sameAfter] at more
                exact absurd more (Nat.ne_of_lt (Nat.lt_succ_self _))
              · rintro ⟨_, _, same, nothing⟩
                cases same
                cases nothing

theorem requestId_of_taken {t after : Server} {d : ConnId} {random : Nat} {id : Bytes}
    (taken : t.takeId d random = some (after, id)) :
    ∃ http generated, (t.conns d).http.requestId t.generated random = .ok (http, generated) ∧ http.id = id := by
  unfold Server.takeId at taken
  cases found : (t.conns d).http.requestId t.generated random with
  | error error =>
      rw [found] at taken
      cases taken
  | ok result =>
      rw [found] at taken
      exact ⟨result.1, result.2, rfl, (Prod.mk.inj (Option.some.inj taken)).2⟩

theorem comes_ite {condition : Prop} [Decidable condition] (t : Server) (left right : Action) :
    Comes Action.apply (if condition then perform left else perform right : Routine Unit) t []
      (perform (if condition then left else right)) t := by
  by_cases holds : condition
  · rw [if_pos holds, if_pos holds]
    exact comes_here _ t
  · rw [if_neg holds, if_neg holds]
    exact comes_here _ t

theorem comes_use {α : Type} {t u : Server} {d : ConnId} {rest : Conn → Routine α} {later : Routine α}
    {front : List (Action × Server)} (alive : (t.conns d).freed = false)
    (comes : Comes Action.apply (rest (t.conns d)) t front later u) :
    Comes Action.apply (use d >>= rest) t front later u := by
  have read : Comes Action.apply (use d) t [] (pure (t.conns d)) t := by
    unfold use
    apply Comes.look
    rw [alive]
    exact comes_here _ t
  exact (read.bind rest).trans comes

theorem reaches_use {α : Type} {t u : Server} {d : ConnId} {rest : Conn → Routine α} {later : Routine α}
    (alive : (t.conns d).freed = false) (reaches : Reaches Action.apply (rest (t.conns d)) t later u) :
    Reaches Action.apply (use d >>= rest) t later u := by
  obtain ⟨front, comes⟩ := reaches
  exact ⟨front, comes_use alive comes⟩

/-- With a generated id both kinds of dispatch go on, or refuse it because it is in use. -/
theorem freshlyNamed_of_taken {env : Env} {t : Server} {d : ConnId}
    (taken : ∃ after, t.takeId d (env.random t.generated) =
      some (after, generateId t.generated (env.random t.generated)) ∧ after.generated = t.generated + 1) :
    FreshlyNamed env d t := by
  have fresh := taken
  obtain ⟨after, takes, _⟩ := fresh
  obtain ⟨http, generated, found, idEq⟩ := requestId_of_taken takes
  constructor
  · exact taken
  · intro i j p w name worker mode
    constructor
    · unfold handSync
      apply Comes.look
      simp only [worker, mode, takes, Bool.false_eq_true, if_false]
      exact comes_ite t _ _
    · simp only [Server.handed, worker, found, idEq]
  · intro c i j p fuel message stands client eligible alive mode
    constructor
    · simp only [Server.eligible, Server.alive, client, Bool.and_eq_true, Bool.not_eq_true',
        decide_eq_true_eq] at eligible
      obtain ⟨mine, opened, waits⟩ := eligible
      have test : ¬ (!message.requiredWorker.isEmpty &&
          decide (message.requiredWorker ≠ (t.conns c).http.connectionId)) = true := by
        simpa [Server.addressed, or_iff_not_imp_left] using mine
      rw [findMessage]
      apply Comes.look
      simp only [stands, if_neg test, client]
      apply comes_use alive
      simp only [opened, waits, ne_eq, not_true_eq_false, decide_false, Bool.or_false, Bool.false_eq_true, if_false,
        mode, takes]
      exact comes_here _ t
    · simp only [Server.handed, stands, Option.bind_some, client, found, idEq]

theorem freshlyNamed_iff {env : Env} {t : Server} {d : ConnId} (id : (t.conns d).http.id = [])
    (inside : (t.conns d).http.json.index ≤ (t.conns d).http.json.data.length) :
    FreshlyNamed env d t ↔ Nameless (t.conns d).http.json := by
  rw [nameless_iff inside (Nat.lt_succ_of_le (Nat.sub_le _ _)), ← taken_iff id]
  exact ⟨FreshlyNamed.taken, freshlyNamed_of_taken⟩

/-! ### The call -/

/-- The value that the last member with the key leaves. -/
def lastWith (key : Bytes) (members : List (Bytes × Bytes)) (before : Bytes) : Bytes :=
  members.foldl (fun value member => if member.1 = key then member.2 else value) before

/-- The first id with a value, or the one from before. -/
def callId (members : List (Bytes × Bytes)) (before : Bytes) : Bytes :=
  members.foldl (fun id member => if (decide (member.1 = ascii "id") && id.isEmpty) = true then member.2 else id)
    before

theorem lastWith_cons (key other value before : Bytes) (rest : List (Bytes × Bytes)) :
    lastWith key ((other, value) :: rest) before = lastWith key rest (if other = key then value else before) := rfl

theorem callId_cons (other value before : Bytes) (rest : List (Bytes × Bytes)) :
    callId ((other, value) :: rest) before =
      callId rest (if (decide (other = ascii "id") && before.isEmpty) = true then value else before) := rfl

/-- The method as a queue is looked up under it. -/
def callMethodName (members : List (Bytes × Bytes)) : Bytes :=
  match lastWith (ascii "method") members [] with
  | 47 :: rest => rest
  | method => method

/-- Only the connection itself has changed, and not its body. -/
structure Beside (c : ConnId) (s t : Server) : Prop where
  others : ∀ x, x ≠ c → t.conns x = s.conns x
  body : (t.conns c).http.body = (s.conns c).http.body
  closed : (t.conns c).closed = (s.conns c).closed
  waitResponse : t.waitResponse = s.waitResponse
  jsonrpc2 : t.jsonrpc2 = s.jsonrpc2

theorem Beside.trans {c : ConnId} {s t u : Server} (first : Beside c s t) (second : Beside c t u) : Beside c s u where
  others := fun x other => (second.others x other).trans (first.others x other)
  body := second.body.trans first.body
  closed := second.closed.trans first.closed
  waitResponse := second.waitResponse.trans first.waitResponse
  jsonrpc2 := second.jsonrpc2.trans first.jsonrpc2

/-- Only the scanner and the id of the request have changed, beside what is no part of it. -/
structure Scanned (c : ConnId) (json : Json) (id : Bytes) (s t : Server) : Prop where
  http : (t.conns c).http = { (s.conns c).http with json := json, id := id }
  unfed : Unfed s t
  beside : Beside c s t

section Call

variable {c : ConnId} {s : Server}

theorem edit_beside {change : Http → Http} (body : (change (s.conns c).http).body = (s.conns c).http.body) :
    Beside c s ((s.note (.taken c [])).modify c fun conn => { conn with http := change conn.http }) := by
  constructor
  · intro x other
    rw [Server.modify_conns, if_neg other]
    rfl
  · rw [Server.modify_self]
    exact body
  · rw [Server.modify_self]
    rfl
  · rfl
  · rfl

theorem edit_scanned {json : Json} {id : Bytes} {change : Http → Http}
    (changeEq : change (s.conns c).http = { (s.conns c).http with json := json, id := id }) :
    ∃ t, (Action.edit c [] change).apply s = .returned t () ∧ Scanned c json id s t := by
  refine ⟨_, rfl, ?_, ?_, ?_⟩
  · rw [Server.modify_self]
    exact changeEq
  · apply (Unfed.refl s).note.shuts
    · change ((s.conns c).nloop, (change (s.conns c).http).intake) = _
      rw [changeEq]
      rfl
    · exact fun closed => closed
  · apply edit_beside
    rw [changeEq]

theorem Scanned.trans {t u : Server} {json later : Json} {id next : Bytes} (first : Scanned c json id s t)
    (second : Scanned c later next t u) : Scanned c later next s u where
  http := by
    rw [second.http, first.http]
  unfed := first.unfed.trans second.unfed
  beside := first.beside.trans second.beside

/-- The loop over the members keeps the last method and the last params, and the first id. -/
theorem rpcCallLoop_reaches {members : List (Bytes × Bytes)} {last : Json} {fuel : Nat}
    (scanned : scansTo members (s.conns c).http.json last) (enough : members.length < fuel)
    (method params : Bytes) {id : Bytes} (own : (s.conns c).http.id = id) :
    ∃ t, Reaches Action.apply (rpcCallLoop c fuel method id params) s
        (return (lastWith (ascii "method") members method, callId members id,
          lastWith (ascii "params") members params)) t ∧
      Scanned c last (callId members id) s t := by
  induction members generalizing s fuel method params id with
  | nil =>
      obtain ⟨fuel, rfl⟩ := Nat.exists_eq_succ_of_ne_zero (Nat.ne_of_gt enough)
      have ended : (s.conns c).http.json.scan = .ok (last, false) := scanned
      obtain ⟨t, edits, same⟩ := @edit_scanned c s last id (fun http => { http with json := last }) (by rw [← own])
      refine ⟨t, ?_, same⟩
      rw [rpcCallLoop]
      apply Reaches.look
      simp only [ended]
      exact Reaches.perform edits (reaches_here _ t)
  | cons member rest ih =>
      obtain ⟨fuel, rfl⟩ := Nat.exists_eq_succ_of_ne_zero (Nat.ne_of_gt (Nat.lt_of_le_of_lt (Nat.zero_le _) enough))
      obtain ⟨key, value⟩ := member
      obtain ⟨after, scan, keyEq, valueEq, later⟩ := scanned
      obtain ⟨t, edits, same⟩ := @edit_scanned c s after id (fun http => { http with json := after }) (by rw [← own])
      have short : rest.length < fuel := Nat.lt_of_succ_lt_succ enough
      have atRest : scansTo rest (t.conns c).http.json last := by
        rw [same.http]
        exact later
      have ownAfter : (t.conns c).http.id = id := by rw [same.http]
      have step : ∀ {value' id' params' : Bytes} {v : Server},
          Reaches Action.apply
            (if after.key = ascii "method" then rpcCallLoop c fuel after.value id params
              else if (decide (after.key = ascii "id") && id.isEmpty) = true then do
                perform (.edit c [] fun http => { http with id := after.value })
                rpcCallLoop c fuel method after.value params
              else if after.key = ascii "params" then rpcCallLoop c fuel method id after.value
              else rpcCallLoop c fuel method id params) t (return (value', id', params')) v →
          Reaches Action.apply (rpcCallLoop c (fuel + 1) method id params) s (return (value', id', params')) v := by
        intro value' id' params' v reaches
        rw [rpcCallLoop]
        apply Reaches.look
        simp only [scan]
        exact Reaches.perform edits reaches
      rw [keyEq, valueEq] at step
      by_cases isMethod : key = ascii "method"
      · obtain ⟨u, reaches, both⟩ := ih atRest short value params ownAfter
        rw [if_pos isMethod] at step
        rw [isMethod]
        exact ⟨u, step reaches, same.trans both⟩
      · rw [if_neg isMethod] at step
        rw [lastWith_cons, lastWith_cons, callId_cons, if_neg isMethod]
        by_cases isId : (decide (key = ascii "id") && id.isEmpty) = true
        · have key := of_decide_eq_true (Bool.and_eq_true_iff.mp isId).1
          obtain ⟨v, stores, named⟩ := @edit_scanned c t after value (fun http => { http with id := value })
            (by rw [same.http])
          have atRest : scansTo rest (v.conns c).http.json last := by
            rw [named.http]
            exact later
          have chosen : (v.conns c).http.id = value := by rw [named.http]
          obtain ⟨u, reaches, both⟩ := ih atRest short method params chosen
          rw [if_pos isId] at step
          rw [if_pos isId, if_neg (by rw [key]; decide)]
          exact ⟨u, step (Reaches.perform stores reaches), (same.trans named).trans both⟩
        · rw [if_neg isId] at step
          rw [if_neg isId]
          by_cases isParams : key = ascii "params"
          · obtain ⟨u, reaches, both⟩ := ih atRest short method value ownAfter
            rw [if_pos isParams] at step
            rw [if_pos isParams]
            exact ⟨u, step reaches, same.trans both⟩
          · obtain ⟨u, reaches, both⟩ := ih atRest short method params ownAfter
            rw [if_neg isParams] at step
            rw [if_neg isParams]
            exact ⟨u, step reaches, same.trans both⟩

/-- The methods that ask for something else than a queue. -/
def isCommand (method : Bytes) : Bool :=
  method = ascii "rpc/worker" || method = ascii "rpc/add" || method = ascii "rpc/result" ||
    method = ascii "rpc/details" || method = ascii "/" || method = ascii "rpc/help"

theorem option_reaches {text : Bytes} (reads : s.optionText c = some text) :
    Reaches Action.apply (option c) s (return text) s :=
  reaches_returned (by rw [option_outcome, reads])

theorem callMethod_reaches (env : Env) {method text : Bytes} (id : Bytes) (plain : isCommand method = false)
    (reads : s.optionText c = some text) :
    ∃ t, Reaches Action.apply (callMethod env c method id) s (clientRequest env method c) t ∧
      (t.conns c).http = { (s.conns c).http with noResponse := decide (text = ascii "async") } := by
  simp only [isCommand, Bool.or_eq_false_iff, decide_eq_false_iff_not] at plain
  obtain ⟨⟨⟨⟨⟨noWorker, noAdd⟩, noResult⟩, noDetails⟩, noRoot⟩, noHelp⟩ := plain
  obtain ⟨t, edits, httpEq⟩ : ∃ t,
      (Action.edit c [] fun http => { http with noResponse := decide (text = ascii "async") }).apply s =
        .returned t () ∧
      (t.conns c).http = { (s.conns c).http with noResponse := decide (text = ascii "async") } :=
    ⟨_, rfl, by rw [Server.modify_self]; rfl⟩
  refine ⟨t, ?_, httpEq⟩
  unfold callMethod
  simp only [if_neg noWorker, if_neg noAdd, if_neg noResult, if_neg noDetails, noRoot, noHelp, decide_false,
    Bool.or_false, Bool.false_eq_true, if_false]
  exact ((option_reaches reads).bind _).trans (Reaches.perform edits (reaches_here _ t))

/-- A call without an Id header, whose body is an object that is read to its end. -/
structure ReadsCall (c : ConnId) (members : List (Bytes × Bytes)) (last : Json) (s : Server) : Prop where
  workerMode : (s.conns c).workerMode = false
  noid : (s.conns c).noid = false
  path : (s.conns c).http.path = ascii "rpc/call"
  type : (s.conns c).http.type = .none
  id : (s.conns c).http.id = []
  body : Accepted (s.conns c).http.body members last
  method : callMethodName members ≠ []

/-- It names a queue and has no member `id`. -/
structure Calls (c : ConnId) (members : List (Bytes × Bytes)) (last : Json) (s : Server) : Prop
    extends ReadsCall c members last s where
  nameless : ∀ member ∈ members, member.1 ≠ ascii "id"
  plain : isCommand (callMethodName members) = false
  option : ∃ text, s.optionText c = some text

/-- What the scanner is left with when the call is dispatched. -/
def callJson (members : List (Bytes × Bytes)) (last : Json) : Json :=
  if (lastWith (ascii "params") members []).isEmpty then last
  else Json.load (lastWith (ascii "params") members []) 1

theorem callId_nameless {members : List (Bytes × Bytes)} (nameless : ∀ member ∈ members, member.1 ≠ ascii "id")
    (before : Bytes) : callId members before = before := by
  induction members with
  | nil => rfl
  | cons member rest ih =>
      obtain ⟨key, value⟩ := member
      have other : key ≠ ascii "id" := nameless (key, value) List.mem_cons_self
      rw [callId_cons, decide_eq_false other, Bool.false_and, if_neg Bool.false_ne_true]
      exact ih fun later isMember => nameless later (List.mem_cons_of_mem _ isMember)

/-- The scanner is loaded with `params` unless they are empty. -/
theorem reload_reaches {members : List (Bytes × Bytes)} {last : Json} (ended : (s.conns c).http.json = last) :
    ∃ t, (∀ rest : Unit → Routine Unit, Reaches Action.apply
        (if (!(lastWith (ascii "params") members []).isEmpty) = true then do
            perform (.edit c [] fun http =>
              { http with json := Json.load (lastWith (ascii "params") members []) 1 })
            rest ()
          else rest ()) s (rest ()) t) ∧
      Scanned c (callJson members last) (s.conns c).http.id s t := by
  unfold callJson
  cases empty : (lastWith (ascii "params") members []).isEmpty with
  | true =>
      refine ⟨s, fun rest => ?_, ?_, Unfed.refl s, fun _ _ => rfl, rfl, rfl, rfl, rfl⟩
      · rw [Bool.not_true, if_neg Bool.false_ne_true]
        exact reaches_here _ s
      · rw [if_pos rfl, ← ended]
  | false =>
      rw [if_neg Bool.false_ne_true]
      obtain ⟨t, edits, loaded⟩ := @edit_scanned c s (Json.load (lastWith (ascii "params") members []) 1) _
        (fun http => { http with json := Json.load (lastWith (ascii "params") members []) 1 }) rfl
      refine ⟨t, fun rest => ?_, loaded⟩
      rw [Bool.not_false, if_pos rfl]
      exact Reaches.perform edits (reaches_here _ t)

theorem complete_conn (s : Server) (c : ConnId) : (s.complete c).conns c =
    { s.conns c with keepAlive := decide ((s.conns c).http.httpVersion = 11) } := by
  rw [Server.complete, Server.enter_conns, Server.note_conns, Server.modify_self]

theorem complete_beside (s : Server) (c : ConnId) : Beside c s (s.complete c) := by
  constructor
  · intro x other
    rw [Server.complete, Server.enter_conns, Server.note_conns, Server.modify_conns, if_neg other]
  · rw [complete_conn]
  · rw [complete_conn]
  · rfl
  · rfl

/-- A request in neither mode is served with the scanner at the front of its body. -/
theorem headerCompleted_reaches (env : Env) (workerMode : (s.conns c).workerMode = false)
    (noid : (s.conns c).noid = false) (path : (s.conns c).http.path ≠ ascii "echo") :
    ∃ t, Reaches Action.apply (headerCompleted env c) s
        (if (s.conns c).http.type ≠ .none then typed env c (s.conns c).http else untyped env c) t ∧
      Scanned c (Json.load (s.conns c).http.body 0) (s.conns c).http.id s t := by
  have completed : (Action.complete c).apply s = .returned (s.complete c) () := rfl
  have started : Unfeeds s ((Action.complete c).apply s) := Unfed.apply_unfed s rfl fun _ _ same => by cases same
  obtain ⟨t, loads, loaded⟩ := @edit_scanned c (s.complete c) (Json.load (s.conns c).http.body 0) (s.conns c).http.id
    (fun http => { http with json := Json.load http.body 0 }) (by rw [complete_conn])
  refine ⟨t, ?_, ?_, Unfed.trans started loaded.unfed, (complete_beside s c).trans loaded.beside⟩
  · unfold headerCompleted
    apply Reaches.perform completed
    apply Reaches.look
    simp only [complete_conn, if_neg path, workerMode, noid, Bool.false_eq_true, if_false]
    exact Reaches.perform loads (reaches_here _ t)
  · rw [loaded.http, complete_conn]

/-- The members of the body decide what the call asks for. -/
theorem ReadsCall.reaches (env : Env) {members : List (Bytes × Bytes)} {last : Json}
    (reads : ReadsCall c members last s) :
    ∃ t, Reaches Action.apply (headerCompleted env c) s
        (callMethod env c (callMethodName members) (callId members [])) t ∧
      Scanned c (callJson members last) (callId members []) s t := by
  obtain ⟨t, loads, loaded⟩ := headerCompleted_reaches env reads.workerMode reads.noid (by rw [reads.path]; decide)
  have atBody : scansTo members (t.conns c).http.json last := by
    rw [loaded.http]
    exact reads.body.scanned
  have short : members.length < (t.conns c).http.json.data.length + 1 := by
    have bound := scansTo_length atBody (by rw [loaded.http]; exact Nat.zero_le _)
    omega
  have own : (t.conns c).http.id = [] := by rw [loaded.http, reads.id]
  obtain ⟨u, scans, scanned⟩ := rpcCallLoop_reaches atBody short [] [] own
  obtain ⟨v, reloads, again⟩ := @reload_reaches c u members last (by rw [scanned.http])
  have named : (u.conns c).http.id = callId members [] := by rw [scanned.http]
  rw [named] at again
  refine ⟨v, ?_, (loaded.trans scanned).trans again⟩
  apply loads.trans
  rw [reads.type, if_neg (by simp)]
  apply Reaches.look
  have path : (t.conns c).http.path = ascii "rpc/call" := by rw [loaded.http, reads.path]
  simp only [path, own, if_true]
  apply (scans.bind _).trans
  refine Reaches.trans (reloads fun _ =>
    if (callMethodName members).isEmpty then perform (.respond c ⟨"400 No method", [], .code (-32601)⟩)
    else callMethod env c (callMethodName members) (callId members [])) ?_
  rw [if_neg (by simpa using reads.method)]
  exact reaches_here _ v

/-- The call goes to `client_request`, with the scanner at the end of the body or at the
front of `params`. -/
theorem Calls.reaches (env : Env) {members : List (Bytes × Bytes)} {last : Json} (calls : Calls c members last s) :
    ∃ u, Reaches Action.apply (headerCompleted env c) s (clientRequest env (callMethodName members) c) u ∧
      (u.conns c).http.id = [] ∧ (u.conns c).http.json = callJson members last := by
  obtain ⟨text, reads⟩ := calls.option
  obtain ⟨t, comes, scanned⟩ := calls.toReadsCall.reaches env
  rw [callId_nameless calls.nameless] at comes scanned
  obtain ⟨u, calling, after⟩ := callMethod_reaches env [] calls.plain ((scanned.unfed.optionText c).trans reads)
  refine ⟨u, comes.trans calling, ?_, ?_⟩
  · rw [after, scanned.http]
  · rw [after, scanned.http]

/-- A call without an id is dispatched under a generated one, in whatever state its request
is still as it was read, if and only if it has `params` that are not empty and that,
read as an object of their own, have no error and no id with a value before their end. -/
theorem call_freshly_named_iff (env : Env) {members : List (Bytes × Bytes)} {last : Json}
    (calls : Calls c members last s) :
    ∃ u, Reaches Action.apply (headerCompleted env c) s (clientRequest env (callMethodName members) c) u ∧
      ((∀ t : Server, (t.conns c).http.id = (u.conns c).http.id →
          (t.conns c).http.json = (u.conns c).http.json → FreshlyNamed env c t) ↔
        lastWith (ascii "params") members [] ≠ [] ∧
          Nameless (Json.load (lastWith (ascii "params") members []) 1)) := by
  obtain ⟨u, reaches, idEq, jsonEq⟩ := calls.reaches env
  refine ⟨u, reaches, ?_⟩
  rw [idEq, jsonEq]
  constructor
  · intro fresh
    have taken := (taken_iff idEq).mp (fresh u idEq jsonEq).taken
    rw [jsonEq] at taken
    by_cases empty : lastWith (ascii "params") members [] = []
    · have behind : callJson members last = last := by rw [callJson, empty]; rfl
      have data : last.data = (s.conns c).http.body := scansTo_data calls.body.scanned
      have nonempty : last.data ≠ [] := by
        rw [data]
        intro noBody
        have scanned := calls.body.scanned
        rw [noBody] at scanned
        cases members with
        | nil => exact calls.method rfl
        | cons member rest =>
            obtain ⟨after, scan, _⟩ := scanned
            cases scan
      have again := scan_behind nonempty (by rw [data]; exact calls.body.trail)
      rw [behind, Http.scanFor, again] at taken
      obtain ⟨_, _, impossible, _⟩ := taken
      cases impossible
    · have front : callJson members last = Json.load (lastWith (ascii "params") members []) 1 := by
        rw [callJson, if_neg (by simpa using empty)]
      rw [front] at taken
      exact ⟨empty, (nameless_iff (Nat.zero_le _) (Nat.lt_succ_of_le (Nat.sub_le _ _))).mpr taken⟩
  · rintro ⟨nonempty, nameless⟩ t sameId sameJson
    have front : callJson members last = Json.load (lastWith (ascii "params") members []) 1 := by
      rw [callJson, if_neg (by simpa using nonempty)]
    rw [front] at sameJson
    apply (freshlyNamed_iff sameId _).mpr
    · rw [sameJson]
      exact nameless
    · rw [sameJson]
      exact Nat.zero_le _

end Call

/-- A connection whose request is an `rpc/call` with this body. -/
def calling (body : Bytes) : Server :=
  oneConnection.modify 0 fun conn => { conn with http := { conn.http with path := ascii "rpc/call", body := body } }

/-- A call of the queue `a`. -/
def callBody (members : String) : Bytes := ascii ("\x7b\"method\":\"a\"" ++ members ++ "\x7d")

theorem calling_calls : ∃ last, Calls 0 [(ascii "method", ascii "a"), (ascii "params", ascii "\x7b\"x\":\"9\"\x7d")] last
    (calling (callBody ",\"params\":\x7b\"x\":\"9\"\x7d")) := by
  refine ⟨_, ⟨rfl, rfl, rfl, rfl, rfl, ⟨⟨_, rfl, rfl, rfl, _, rfl, rfl, rfl, rfl⟩, ?_⟩, ?_⟩, ?_, ?_, [], rfl⟩
  · exact fun a nothing => by cases nothing
  · decide
  · decide
  · decide

/-- A call with an object for `params`. -/
theorem call_freshly_named_object :
    ∃ u, Reaches Action.apply (headerCompleted atRest 0)
        (calling (callBody ",\"params\":\x7b\"x\":\"9\"\x7d")) (clientRequest atRest (ascii "a") 0) u ∧
      ∀ t : Server, (t.conns 0).http.id = (u.conns 0).http.id → (t.conns 0).http.json = (u.conns 0).http.json →
        FreshlyNamed atRest 0 t := by
  obtain ⟨last, calls⟩ := calling_calls
  obtain ⟨u, reaches, fresh⟩ := call_freshly_named_iff atRest calls
  refine ⟨u, reaches, fresh.mpr ⟨by decide, ?_⟩⟩
  exact .passed rfl (by decide) (.ended rfl)

/-- A client sends the call. -/
def callRequest (body : Bytes) : Input :=
  .recv 1 (ascii "POST /rpc/call HTTP/1.1\r\nContent-Length: " ++ addNumber body.length ++ ascii "\r\n\r\n" ++ body)
    atRest

/-- The client is refused because no id is found in its JSON. -/
def refusesNoId (s : Server) (body : Bytes) : Bool :=
  decide ((callRequest body).Enabled s) && ((callRequest body).run s).1.any fun moment =>
    match moment.1 with
    | .undoNoId c _ _ _ => c = 1
    | _ => false

/-- A call without `params` is refused, with a worker waiting, and an id inside `params` is taken. -/
theorem call_without_params_refused :
    (∃ last, Accepted (callBody "") [(ascii "method", ascii "a")] last) ∧
    (∃ s, Reachable anything s ∧ (callRequest (callBody "")).Enabled s ∧
      ∃ moment ∈ ((callRequest (callBody "")).run s).1, ∃ i j p, moment.1 = .undoNoId 1 i j p) ∧
    ∃ s, Reachable anything s ∧ (callRequest (callBody ",\"params\":\x7b\"id\":\"9\"\x7d")).Enabled s ∧
      (callRequest (callBody ",\"params\":\x7b\"id\":\"9\"\x7d")).firstTask s =
        some (0, ⟨some (ascii "9"), ascii "a", false, callBody ",\"params\":\x7b\"id\":\"9\"\x7d"⟩) := by
  have ran : (afterAll oneWorker (Server.new 1 false [] 0)).map (fun s =>
      (refusesNoId s (callBody ""),
        decide ((callRequest (callBody ",\"params\":\x7b\"id\":\"9\"\x7d")).Enabled s),
        (callRequest (callBody ",\"params\":\x7b\"id\":\"9\"\x7d")).firstTask s)) =
      some (true, true,
        some (0, ⟨some (ascii "9"), ascii "a", false, callBody ",\"params\":\x7b\"id\":\"9\"\x7d"⟩)) := by
    decide +kernel
  obtain ⟨s, afterEq, facts⟩ := Option.map_eq_some_iff.mp ran
  have reachable := reachable_afterAll (.new 1 false [] 0) afterEq
  rw [Prod.mk.injEq, Prod.mk.injEq, decide_eq_true_eq] at facts
  obtain ⟨refuses, enabled, taken⟩ := facts
  refine ⟨⟨_, ⟨_, rfl, rfl, rfl, rfl⟩, fun a nothing => by cases nothing⟩, ⟨s, reachable, ?_⟩, s, reachable, enabled, taken⟩
  rw [refusesNoId, Bool.and_eq_true, decide_eq_true_eq, List.any_eq_true] at refuses
  obtain ⟨ready, moment, member, test⟩ := refuses
  refine ⟨ready, moment, member, ?_⟩
  split at test
  · rename_i c i j p actionEq
    rw [actionEq, of_decide_eq_true test]
    exact ⟨i, j, p, rfl⟩
  · cases test

end Ijson
