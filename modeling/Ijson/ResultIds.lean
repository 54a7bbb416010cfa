/-
Ids of posted results, against the ids of the requests they answer.

The id of a request is copied from its body as it is spelled there, and so is
the id of a result; `wait_response` compares the bytes.  Names of queues are
unescaped on their way, ids are not.
-/

import Ijson.CallIds
import Ijson.JsonStrings
import Ijson.LoopEntries

namespace Ijson

open Program Routine JsonText

/-! ### Bodies -/

/-- The scanner reads `id` from the body, as this text. -/
def Carries (body id : Bytes) : Prop :=
  ∃ left, Http.scanFor (ascii "id") (body.length + 1) (Json.load body 0) = .ok (left, some id)

/-- The text is this object, and the scanner reads all its members as they are meant. -/
structure Meant (object : ObjectText) (text : Bytes) : Prop where
  bytes : object.bytes = text
  valid : object.Valid fun _ => True
  read : ∀ member ∈ object.members, Member.Read member

theorem Meant.carries {object : ObjectText} {body : Bytes} (meant : Meant object body) (id : Bytes) :
    Carries body id ↔ firstWith (ascii "id") (object.members.map pair) = some id := by
  rw [← meant.bytes]
  obtain ⟨last, scanned, _⟩ := scansTo_object object 0 meant.valid meant.read
  have short := scansTo_length scanned (Nat.zero_le _)
  obtain ⟨left, found⟩ := @scanFor_scansTo _ _ _ (ascii "id") (object.bytes.length + 1) scanned
    (Nat.lt_succ_of_le (Nat.le_trans (Nat.le_add_left _ _) short))
  unfold Carries
  rw [found]
  constructor
  · rintro ⟨_, same⟩
    exact (Prod.mk.inj (Except.ok.inj same)).2
  · intro same
    exact ⟨left, by rw [same]⟩

theorem Meant.accepted {object : ObjectText} {body : Bytes} (meant : Meant object body) :
    ∃ last, Accepted body (object.members.map pair) last := by
  rw [← meant.bytes]
  exact accepted_object object meant.valid meant.read

/-- A synchronous request carries its id so: it is read when the request is dispatched, or
by `rpc/call` before. -/
inductive AsksUnder (http : Http) (id : Bytes) : Prop
  | body {object : ObjectText} (meant : Meant object http.body) (own : http.id = [])
      (json : http.json = Json.load http.body 0)
      (spelled : firstWith (ascii "id") (object.members.map pair) = some id)
  | call {object : ObjectText} (meant : Meant object http.body)
      (own : http.id = callId (object.members.map pair) []) (spelled : callId (object.members.map pair) [] = id)

theorem requestId_found {http : Http} {id : Bytes} {left : Json} (own : http.id = [])
    (found : Http.scanFor (ascii "id") (http.json.data.length + 1) http.json = .ok (left, some id))
    (nonempty : id ≠ []) (index random : Nat) :
    http.requestId index random = .ok ({ http with json := left, id := id }, false) := by
  rw [Http.requestId, own, found]
  cases id with
  | nil => exact absurd rfl nonempty
  | cons a rest => rfl

theorem asks_requestId {http : Http} {id : Bytes} (asks : AsksUnder http id) (nonempty : id ≠ []) (index random : Nat) :
    ∃ after, http.requestId index random = .ok (after, false) ∧ after.id = id := by
  cases asks with
  | body meant own json spelled =>
      obtain ⟨left, found⟩ := (meant.carries id).mpr spelled
      exact ⟨_, requestId_found own (by rw [json]; exact found) nonempty index random, rfl⟩
  | call meant own same =>
      refine ⟨http, ?_, own.trans same⟩
      rw [Http.requestId, if_pos (by rw [own, same]; simpa using nonempty)]

/-- The connection posts a result: with its type, under its name, or by `rpc/call`. -/
inductive Posting (http : Http) : Prop
  | typed (type : http.type = .result) (path : http.path = ascii "/") (own : http.id = [])
  | named (type : http.type = .none) (path : http.path = ascii "rpc/result") (own : http.id = [])
  | call {members : List (Bytes × Bytes)} {last : Json} (type : http.type = .none)
      (path : http.path = ascii "rpc/call") (own : http.id = []) (accepted : Accepted http.body members last)
      (method : callMethodName members = ascii "rpc/result")

/-- The scanner reads the id of the result in its body. -/
inductive Posts (http : Http) (id : Bytes) : Prop
  | typed (type : http.type = .result) (path : http.path = ascii "/") (own : http.id = [])
      (carries : Carries http.body id)
  | named (type : http.type = .none) (path : http.path = ascii "rpc/result") (own : http.id = [])
      (carries : Carries http.body id)
  | call {members : List (Bytes × Bytes)} {last : Json} (type : http.type = .none)
      (path : http.path = ascii "rpc/call") (own : http.id = []) (accepted : Accepted http.body members last)
      (method : callMethodName members = ascii "rpc/result") (same : callId members [] = id)

/-- A posted result carries its id so. -/
inductive PostsUnder (http : Http) (id : Bytes) : Prop
  | first {object : ObjectText} (posting : http.type = .result ∧ http.path = ascii "/" ∨
      http.type = .none ∧ http.path = ascii "rpc/result") (own : http.id = []) (meant : Meant object http.body)
      (spelled : firstWith (ascii "id") (object.members.map pair) = some id)
  | call {object : ObjectText} (type : http.type = .none) (path : http.path = ascii "rpc/call") (own : http.id = [])
      (meant : Meant object http.body) (method : callMethodName (object.members.map pair) = ascii "rpc/result")
      (spelled : callId (object.members.map pair) [] = id)

theorem PostsUnder.posts {http : Http} {id : Bytes} (under : PostsUnder http id) : Posts http id := by
  cases under with
  | first posting own meant spelled =>
      rcases posting with ⟨type, path⟩ | ⟨type, path⟩
      · exact .typed type path own ((meant.carries id).mpr spelled)
      · exact .named type path own ((meant.carries id).mpr spelled)
  | call type path own meant method spelled =>
      obtain ⟨last, accepted⟩ := meant.accepted
      exact .call type path own accepted method spelled

/-! ### Entries -/

def Action.names (s : Server) : Action → Option ConnId
  | .handId c _ _ _ _ _ => some c
  | .giveId _ i j p _ => (s.messageAt i j p).bind Message.conn
  | _ => none

def Action.namedAs (s : Server) (action : Action) : Option Bytes := (s.handed action).bind fun task => task.2.id

/-- An action that returns has entered the client under its id. -/
abbrev Enters (s : Server) (d : ConnId) (id : Bytes) (result : Result) : Prop :=
  result.Ends (fun _ t => ∀ key, t.waiting key = if key = id then some d else s.waiting key) fun _ _ => True

section Enters

variable {s t : Server} {d : ConnId} {http : Http} {generated : Bool}

theorem claimed_waiting (t : Server) (w d : ConnId) (key : Bytes) :
    (if (t.conns w).failOnDisconnect then
      (t.modify w fun conn => { conn with client := some d }).link d else t).waiting key = t.waiting key := by
  split
  · rfl
  · rfl

theorem takeId_enters {random : Nat} {later : Server → Bytes → Result} (alike : Alike s t)
    (waiting : ∀ key, t.waiting key = s.waiting key)
    (idEq : (s.conns d).http.requestId s.generated random = .ok (http, generated))
    (enters : ∀ u : Server, (∀ key, u.waiting key = s.waiting key) → Enters s d http.id (later u http.id)) :
    Enters s d http.id
      (match t.takeId d random with
      | none => .fault
      | some (t, id) => later t id) := by
  cases taken : t.takeId d random with
  | none => trivial
  | some found =>
      obtain ⟨u, id⟩ := found
      obtain ⟨⟨read, again, idEq', same⟩, _⟩ := Server.takeId_output taken
      rw [alike.http, alike.generated, idEq] at idEq'
      cases idEq'
      rw [same]
      exact enters u fun key => (takeId_waiting taken key).trans (waiting key)

theorem send_enters {id : Bytes} {w : ConnId} {response : Response} {next : Server → Server}
    (waiting : ∀ key, t.waiting key = s.waiting key)
    (enters : ∀ (u : Server) key, (next u).waiting key = (u.insertWait id d).waiting key) :
    Enters s d id ((t.send w response).andThen fun u => .returned (next u) ()) := by
  rw [Enters, Ends_andThen]
  apply Server.send_ends
  · intro _ key
    rw [enters, waiting_insertWait]
    by_cases own : key = id
    · rw [if_pos own, if_pos own]
    · rw [if_neg own, if_neg own]
      exact waiting key
  · intro _
    trivial

theorem dropEntry_enters {w : ConnId} {i j p : Nat} {id : Bytes} (worker : s.workerAt i j p = some w)
    {next : Server → Result}
    (later : ∀ t : Server, Alike s t → (∀ key, t.waiting key = s.waiting key) → Enters s d id (next t)) :
    Enters s d id ((s.dropEntry i j p).andThen next) := by
  rw [Enters, Ends_andThen, Server.dropEntry, worker]
  apply Server.unlink_ends
  · intro _
    exact later _ (((Alike.refl s).eraseWorker i j p).unlinked w) fun key =>
      waiting_ids (congrArg Ids.waitResponse (s.eraseWorker_ids i j p)) key
  · intro _
    trivial

theorem handId_enters {w : ConnId} {i j p random : Nat} {name : Bytes} (worker : s.workerAt i j p = some w)
    (idEq : (s.conns d).http.requestId s.generated random = .ok (http, generated)) :
    Enters s d http.id (s.handId d i j p name random) := by
  rw [Server.handId, worker]
  apply dropEntry_enters worker
  intro t alike waiting
  apply takeId_enters alike waiting idEq
  intro u waiting
  apply send_enters
  · intro key
    exact (claimed_waiting u w d key).trans (waiting key)
  · intro u key
    rfl

theorem giveId_enters {c : ConnId} {i j p random : Nat} {message : Message}
    (stands : s.messageAt i j p = some message) (client : message.conn = some d)
    (idEq : (s.conns d).http.requestId s.generated random = .ok (http, generated)) :
    Enters s d http.id (s.giveId c i j p random) := by
  unfold Server.giveId
  simp only [stands, client]
  have alike := ((Alike.refl s).takeMessage i j p message).modify d
    (fun conn => { conn with status := .busy }) fun _ => ⟨rfl, rfl, rfl⟩
  apply takeId_enters alike (fun key => waiting_ids (congrArg Ids.waitResponse (s.takeMessage_ids i j p message)) key)
    idEq
  intro u waiting
  exact send_enters (fun key => (claimed_waiting u c d key).trans (waiting key)) fun u key => rfl

theorem names_enters {action : Action} (names : action.names s = some d) :
    (action.apply s).Ends (fun _ t => ∃ id, action.namedAs s = some id ∧
      ∀ key, t.waiting key = if key = id then some d else s.waiting key) fun _ _ => True := by
  unfold Action.names at names
  split at names
  · rename_i i j p name random
    cases names
    change (s.handId d i j p name random).Ends _ _
    cases worker : s.workerAt i j p with
    | none =>
        rw [Server.handId, worker]
        trivial
    | some w =>
        cases found : (s.conns d).http.requestId s.generated random with
        | error error =>
            have nothing : ∀ t : Server, Alike s t → t.takeId d random = none := fun t alike => by
              rw [Server.takeId, alike.http, alike.generated, found]
            rw [Server.handId, worker]
            simp only [Ends_andThen, Server.dropEntry, worker]
            refine Server.unlink_ends (fun _ => ?_) fun _ => trivial
            rw [nothing _ (((Alike.refl s).eraseWorker i j p).unlinked w)]
            trivial
        | ok result =>
            obtain ⟨http, generated⟩ := result
            have named : Action.namedAs s (.handId d i j p name random) = some http.id := by
              simp only [Action.namedAs, Server.handed, worker, found, Option.bind_some]
            exact Program.Ends.mono (handId_enters worker found) (fun _ _ entered => ⟨http.id, named, entered⟩)
              fun _ _ _ => trivial
  · rename_i c i j p random
    obtain ⟨message, stands, client⟩ := Option.bind_eq_some_iff.mp names
    change (s.giveId c i j p random).Ends _ _
    cases found : (s.conns d).http.requestId s.generated random with
    | error error =>
        have alike := ((Alike.refl s).takeMessage i j p message).modify d
          (fun conn => { conn with status := .busy }) fun _ => ⟨rfl, rfl, rfl⟩
        have nothing : ((s.takeMessage i j p message).modify d fun conn => { conn with status := .busy }).takeId d random =
            none := by
          rw [Server.takeId, alike.http, alike.generated, found]
        unfold Server.giveId
        simp only [stands, client, nothing]
        trivial
    | ok result =>
        obtain ⟨http, generated⟩ := result
        have named : Action.namedAs s (.giveId c i j p random) = some http.id := by
          simp only [Action.namedAs, Server.handed, stands, client, found, Option.bind_some]
        exact Program.Ends.mono (giveId_enters stands client found) (fun _ _ entered => ⟨http.id, named, entered⟩)
          fun _ _ _ => trivial
  · cases names

theorem asks_namedAs {action : Action} {id : Bytes} (asks : AsksUnder (s.conns d).http id) (nonempty : id ≠ [])
    (names : action.names s = some d) (named : (action.namedAs s).isSome = true) : action.namedAs s = some id := by
  unfold Action.names at names
  split at names
  · rename_i i j p name random
    cases names
    obtain ⟨after, found, same⟩ := asks_requestId asks nonempty s.generated random
    simp only [Action.namedAs, Server.handed, found] at named ⊢
    cases worker : s.workerAt i j p with
    | none =>
        rw [worker] at named
        cases named
    | some w => exact congrArg some same
  · rename_i c i j p random
    obtain ⟨message, stands, client⟩ := Option.bind_eq_some_iff.mp names
    obtain ⟨after, found, same⟩ := asks_requestId asks nonempty s.generated random
    simp only [Action.namedAs, Server.handed, stands, client, found, Option.bind_some]
    exact congrArg some same
  · cases names

end Enters

/-! ### The result -/

/-- `rpc_result` behind its search for the id. -/
def resultAnswer (c : ConnId) (id : Bytes) : Routine Unit := do
  let result ← workerResult id (some c)
  if result = 0 then perform (.conclude c ⟨"200 OK", [], .code 1⟩)
  else if result = -2 then perform (.conclude c ⟨"499 Closed", [], .code (-1)⟩)
  else perform (.conclude c ⟨"400 Wrong id", [], .code (-1)⟩)

def resultId (json : Json) (id : Bytes) : Except Exc (Json × Option Bytes) :=
  if id.isEmpty && json.level = 0 then Http.scanFor (ascii "id") (json.data.length + 1) json
  else .ok (json, none)

section Result

variable {c d : ConnId} {s t : Server}

theorem rpcResult_reaches {id : Bytes} {left : Json} {value : Option Bytes}
    (found : resultId (s.conns c).http.json id = .ok (left, value)) :
    ∃ t, Reaches Action.apply (rpcResult c id) s
        (if (value.getD id).isEmpty then perform (.conclude c ⟨"400 No id", [], .code (-1)⟩)
          else resultAnswer c (value.getD id)) t ∧
      Beside c s t := by
  obtain ⟨t, edits, scanned⟩ := @edit_scanned c s left (s.conns c).http.id (fun http => { http with json := left }) rfl
  unfold resultId at found
  by_cases empty : (value.getD id).isEmpty = true
  · refine ⟨t, ?_, scanned.beside⟩
    unfold rpcResult
    apply Reaches.look
    simp only [found]
    apply Reaches.perform edits
    simp only [empty, if_true]
    exact reaches_here _ t
  · obtain ⟨u, counts, counted⟩ : ∃ u,
        (Action.count fun stats => { stats with result := stats.result + 1 }).apply t = .returned u () ∧
          Beside c t u :=
      ⟨_, rfl, fun _ _ => rfl, rfl, rfl, rfl, rfl⟩
    refine ⟨u, ?_, scanned.beside.trans counted⟩
    unfold rpcResult
    apply Reaches.look
    simp only [found]
    apply Reaches.perform edits
    simp only [if_neg empty]
    exact Reaches.perform counts (reaches_here _ u)

theorem rpcResult_throws {id : Bytes} {error : Exc} (found : resultId (s.conns c).http.json id = .error error) :
    Reaches Action.apply (rpcResult c id) s (throw error) s := by
  unfold resultId at found
  unfold rpcResult
  apply Reaches.look
  simp only [found]
  exact reaches_here _ s

theorem rpcResult_carries {body id : Bytes} (carries : Carries body id)
    (json : (s.conns c).http.json = Json.load body 0) :
    ∃ t, Reaches Action.apply (rpcResult c []) s
        (if id.isEmpty then perform (.conclude c ⟨"400 No id", [], .code (-1)⟩) else resultAnswer c id) t ∧
      Beside c s t := by
  obtain ⟨left, found⟩ := carries
  apply @rpcResult_reaches c s [] left (some id)
  rw [resultId, json]
  exact found

/-- A call of `rpc/result` brings its id along; without one its scanner is asked again. -/
theorem rpcResult_called {members : List (Bytes × Bytes)} {last : Json} {body : Bytes}
    (accepted : Accepted body members last) (method : callMethodName members = ascii "rpc/result")
    (json : (s.conns c).http.json = callJson members last) :
    (∃ t, Reaches Action.apply (rpcResult c (callId members [])) s
        (if (callId members []).isEmpty then perform (.conclude c ⟨"400 No id", [], .code (-1)⟩)
          else resultAnswer c (callId members [])) t ∧
      Beside c s t) ∨
    callId members [] = [] ∧ ∃ error, Reaches Action.apply (rpcResult c (callId members [])) s (throw error) s := by
  by_cases again : ((callId members []).isEmpty && decide ((callJson members last).level = 0)) = true
  · obtain ⟨empty, level⟩ := Bool.and_eq_true_iff.mp again
    have nothing : callId members [] = [] := List.isEmpty_iff.mp empty
    have noParams : (lastWith (ascii "params") members []).isEmpty = true := by
      by_cases reloaded : (lastWith (ascii "params") members []).isEmpty = true
      · exact reloaded
      · rw [callJson, if_neg reloaded] at level
        cases level
    have behind : callJson members last = last := by rw [callJson, if_pos noParams]
    have data : last.data = body := scansTo_data accepted.scanned
    have nonempty : last.data ≠ [] := by
      rw [data]
      intro noBody
      have scanned := accepted.scanned
      rw [noBody] at scanned
      cases members with
      | nil => cases method
      | cons member rest =>
          obtain ⟨after, scan, _⟩ := scanned
          cases scan
    have refused := scan_behind nonempty (by rw [data]; exact accepted.trail)
    refine Or.inr ⟨nothing, .invalidData, rpcResult_throws ?_⟩
    rw [resultId, json, if_pos again, behind, Http.scanFor, refused]
  · left
    apply @rpcResult_reaches c s (callId members []) (callJson members last) none
    rw [resultId, json, if_neg again]

/-- A scanner that finds no id, or an empty one, has the result refused. -/
theorem rpcResult_unread {body : Bytes} (unread : ∀ id, ¬ Carries body id)
    (json : (s.conns c).http.json = Json.load body 0) :
    (∃ t, Reaches Action.apply (rpcResult c []) s (perform (.conclude c ⟨"400 No id", [], .code (-1)⟩)) t ∧
      Beside c s t) ∨
    ∃ error, Reaches Action.apply (rpcResult c []) s (throw error) s := by
  have asks : resultId (s.conns c).http.json [] = Http.scanFor (ascii "id") (body.length + 1) (Json.load body 0) := by
    rw [resultId, json]
    rfl
  cases found : Http.scanFor (ascii "id") (body.length + 1) (Json.load body 0) with
  | error error => exact Or.inr ⟨error, rpcResult_throws (asks.trans found)⟩
  | ok result =>
      obtain ⟨left, value⟩ := result
      cases value with
      | some id => exact absurd ⟨left, found⟩ (unread id)
      | none =>
          obtain ⟨t, reaches, beside⟩ := rpcResult_reaches (asks.trans found)
          exact Or.inl ⟨t, reaches, beside⟩

theorem posted_reaches (env : Env) (posting : (s.conns c).http.type = .result ∧ (s.conns c).http.path = ascii "/" ∨
    (s.conns c).http.type = .none ∧ (s.conns c).http.path = ascii "rpc/result") (own : (s.conns c).http.id = [])
    (workerMode : (s.conns c).workerMode = false) (noid : (s.conns c).noid = false) :
    ∃ t, Reaches Action.apply (headerCompleted env c) s (rpcResult c []) t ∧ Beside c s t ∧
      (t.conns c).http.json = Json.load (s.conns c).http.body 0 := by
  rcases posting with ⟨type, path⟩ | ⟨type, path⟩
  · obtain ⟨t, loads, loaded⟩ := headerCompleted_reaches env workerMode noid (by rw [path]; decide)
    obtain ⟨u, edits, http, beside⟩ : ∃ u,
        (Action.edit c [] fun http => { http with name := http.path }).apply t = .returned u () ∧
          (u.conns c).http = { (t.conns c).http with name := (t.conns c).http.path } ∧ Beside c t u :=
      ⟨_, rfl, by rw [Server.modify_self]; rfl,
        @edit_beside c t (fun http => { http with name := http.path }) rfl⟩
    refine ⟨u, ?_, loaded.beside.trans beside, by rw [http, loaded.http]⟩
    apply loads.trans
    rw [type, if_pos (by simp)]
    unfold typed
    apply Reaches.perform edits
    simp only [type, own, path, ne_eq, not_true_eq_false, decide_false, Bool.and_false, Bool.false_eq_true, if_false]
    exact reaches_here _ u
  · obtain ⟨t, loads, loaded⟩ := headerCompleted_reaches env workerMode noid (by rw [path]; decide)
    refine ⟨t, ?_, loaded.beside, by rw [loaded.http]⟩
    apply loads.trans
    rw [type, if_neg (by simp)]
    apply Reaches.look
    have same : (t.conns c).http.path = ascii "rpc/result" ∧ (t.conns c).http.id = [] := by
      rw [loaded.http]
      exact ⟨path, own⟩
    simp only [same.1, same.2]
    rw [if_neg (by decide)]
    exact reaches_here _ t

theorem posts_reaches (env : Env) {id : Bytes} (posts : Posts (s.conns c).http id)
    (workerMode : (s.conns c).workerMode = false) (noid : (s.conns c).noid = false) :
    (∃ t, Reaches Action.apply (headerCompleted env c) s
        (if id.isEmpty then perform (.conclude c ⟨"400 No id", [], .code (-1)⟩) else resultAnswer c id) t ∧
      Beside c s t) ∨
    id = [] ∧ ∃ error t, Reaches Action.apply (headerCompleted env c) s (throw error) t := by
  have answered : ∀ (posting : (s.conns c).http.type = .result ∧ (s.conns c).http.path = ascii "/" ∨
      (s.conns c).http.type = .none ∧ (s.conns c).http.path = ascii "rpc/result") (own : (s.conns c).http.id = [])
      (carries : Carries (s.conns c).http.body id), ∃ t, Reaches Action.apply (headerCompleted env c) s
        (if id.isEmpty then perform (.conclude c ⟨"400 No id", [], .code (-1)⟩) else resultAnswer c id) t ∧
      Beside c s t := by
    intro posting own carries
    obtain ⟨t, reaches, beside, json⟩ := posted_reaches env posting own workerMode noid
    obtain ⟨u, answers, besides⟩ := rpcResult_carries carries json
    exact ⟨u, reaches.trans answers, beside.trans besides⟩
  cases posts with
  | typed type path own carries => exact Or.inl (answered (.inl ⟨type, path⟩) own carries)
  | named type path own carries => exact Or.inl (answered (.inr ⟨type, path⟩) own carries)
  | @call members last type path own accepted method same =>
      have reads : ReadsCall c members last s :=
        ⟨workerMode, noid, path, type, own, accepted, by rw [method]; decide⟩
      obtain ⟨t, comes, scanned⟩ := reads.reaches env
      rw [method] at comes
      rw [← same]
      rcases @rpcResult_called c t _ _ _ accepted method (by rw [scanned.http]) with posted | thrown
      · obtain ⟨v, posts, posted⟩ := posted
        exact Or.inl ⟨v, comes.trans posts, scanned.beside.trans posted⟩
      · obtain ⟨nothing, error, throws⟩ := thrown
        exact Or.inr ⟨nothing, error, t, comes.trans throws⟩

theorem unread_reaches (env : Env) (posting : Posting (s.conns c).http) (unread : ∀ id, ¬ Posts (s.conns c).http id)
    (workerMode : (s.conns c).workerMode = false) (noid : (s.conns c).noid = false) :
    (∃ t, Reaches Action.apply (headerCompleted env c) s (perform (.conclude c ⟨"400 No id", [], .code (-1)⟩)) t ∧
      Beside c s t) ∨
    ∃ error t, Reaches Action.apply (headerCompleted env c) s (throw error) t := by
  have refused : ∀ (route : (s.conns c).http.type = .result ∧ (s.conns c).http.path = ascii "/" ∨
      (s.conns c).http.type = .none ∧ (s.conns c).http.path = ascii "rpc/result") (own : (s.conns c).http.id = []),
      (∀ id, ¬ Carries (s.conns c).http.body id) →
      (∃ t, Reaches Action.apply (headerCompleted env c) s (perform (.conclude c ⟨"400 No id", [], .code (-1)⟩)) t ∧
        Beside c s t) ∨ ∃ error t, Reaches Action.apply (headerCompleted env c) s (throw error) t := by
    intro route own nothing
    obtain ⟨t, reaches, beside, json⟩ := posted_reaches env route own workerMode noid
    rcases rpcResult_unread nothing json with ⟨u, answers, besides⟩ | ⟨error, throws⟩
    · exact Or.inl ⟨u, reaches.trans answers, beside.trans besides⟩
    · exact Or.inr ⟨error, t, reaches.trans throws⟩
  cases posting with
  | typed type path own =>
      exact refused (.inl ⟨type, path⟩) own fun id carries => unread id (.typed type path own carries)
  | named type path own =>
      exact refused (.inr ⟨type, path⟩) own fun id carries => unread id (.named type path own carries)
  | call type path own accepted method => exact absurd (.call type path own accepted method rfl) (unread _)

theorem conclude_others (other : d ≠ c) (response : Response) :
    ((Action.conclude c response).apply t).Ends (fun _ u => u.conns d = t.conns d) fun _ u => u.conns d = t.conns d := by
  simp only [Action.apply, Ends_andThen]
  apply Server.send_ends
  · intro _
    simp only [Ends_returned, Server.enter_conns, Server.modify_conns, Server.sent, Server.note_conns, if_neg other]
  · intro _
    rw [Server.headed, Server.modify_conns, if_neg other]

theorem settle_others {e : ConnId} {id : Bytes} (waiting : t.waiting id = some e) (other : d ≠ e)
    (worker : Option ConnId) :
    (t.settle id worker).Ends (fun _ u => u.conns d = t.conns d) fun _ u => u.conns d = t.conns d := by
  have unlinked : ((t.eraseWait id).unlinked e).conns d = t.conns d := by
    rw [Server.unlinked_conns, if_neg other]
    rfl
  unfold Server.settle
  rw [waiting]
  simp only [Ends_andThen]
  apply Server.unlink_ends
  · intro _
    split
    · exact unlinked
    · rw [Ends_andThen]
      apply Server.send_ends
      · intro _
        simp only [Ends_returned, Server.modify_conns, Server.sent, Server.note_conns, if_neg other]
        exact unlinked
      · intro _
        rw [Server.headed, Server.modify_conns, if_neg other]
        exact unlinked
  · intro _
    exact unlinked

theorem resultAnswer_others {id : Bytes} (notWaiting : t.waiting id ≠ some d) (other : d ≠ c) :
    ((resultAnswer c id).outcome Action.apply t).Ends (fun _ u => u.conns d = t.conns d)
      fun _ u => u.conns d = t.conns d := by
  have answers : ∀ (u : Server) (response : Response), u.conns d = t.conns d →
      (perform (.conclude c response) : Routine Unit).wp Action.apply unchecked
        (fun _ u => u.conns d = t.conns d) (fun _ u => u.conns d = t.conns d) u := by
    intro u response same
    rw [wp_perform]
    have concludes := @conclude_others c d u other response
    rw [same] at concludes
    exact ⟨trivial, concludes⟩
  have concluded : ∀ (u : Server) (result : Int), u.conns d = t.conns d →
      (if result = 0 then perform (.conclude c ⟨"200 OK", [], .code 1⟩)
        else if result = -2 then perform (.conclude c ⟨"499 Closed", [], .code (-1)⟩)
        else perform (.conclude c ⟨"400 Wrong id", [], .code (-1)⟩) : Routine Unit).wp Action.apply unchecked
          (fun _ u => u.conns d = t.conns d) (fun _ u => u.conns d = t.conns d) u := by
    intro u result same
    split
    · exact answers u _ same
    · split
      · exact answers u _ same
      · exact answers u _ same
  apply @outcome_ends _ _ _ _ _ unchecked
  unfold resultAnswer workerResult
  rw [wp_bind, wp_bind, wp_get]
  cases waiting : t.waiting id with
  | none => exact concluded t (-1) rfl
  | some e =>
      have different : d ≠ e := by
        intro same
        rw [same] at notWaiting
        exact notWaiting waiting
      simp only [wp_bind]
      apply use_wp
      rw [wp_perform]
      refine ⟨trivial, ?_⟩
      apply Program.Ends.mono (settle_others waiting different (some c))
      · intro _ u same
        exact concluded u _ same
      · intro _ u same
        exact same

structure AwaitsResult (d : ConnId) (s : Server) : Prop where
  opened : (s.conns d).closed = false
  alive : (s.conns d).freed = false
  status : (s.conns d).status = .clientWaitResult
  linked : 0 < (s.conns d).link

def ReceivesResult (c d : ConnId) (id : Bytes) (s u : Server) : Prop :=
  (u.conns d).status = .net ∧ (u.conns d).sendBuffer = (s.conns d).sendBuffer ++
    (Response.head (s.conns d).keepAlive ⟨"200 OK", [("Id", id)], .bytes (s.conns c).http.body⟩ ++
      Response.tail s.jsonrpc2 (.bytes (s.conns c).http.body))

theorem settle_answers {id : Bytes} (waiting : t.waiting id = some d) (awaits : AwaitsResult d t) (other : d ≠ c) :
    ∃ u, t.settle id (some c) = .returned u () ∧ ReceivesResult c d id t u ∧ u.conns c = t.conns c := by
  have opened : (((t.eraseWait id).unlinked d).conns d).closed = false := by
    rw [Server.unlinked_conns]
    exact awaits.opened
  have returns : (t.eraseWait id).unlink d = .returned ((t.eraseWait id).unlinked d) () := by
    rw [Server.unlink_eq]
    exact if_pos awaits.linked
  have worker : ((t.eraseWait id).unlinked d).conns c = t.conns c := by
    rw [Server.unlinked_conns, if_neg (Ne.symm other)]
    rfl
  unfold Server.settle
  simp only [waiting, returns, Result.andThen, opened, Bool.false_eq_true, if_false, Server.send_open opened]
  refine ⟨_, rfl, ⟨?_, ?_⟩, ?_⟩
  · rw [Server.modify_self]
  · rw [Server.modify_self, Server.sent, Server.note_conns, Server.modify_self, worker, Server.unlinked_conns]
    simp only [List.append_assoc]
    rfl
  · rw [Server.modify_conns, if_neg (Ne.symm other), Server.sent, Server.note_conns, Server.modify_conns,
      if_neg (Ne.symm other), worker]

theorem resultAnswer_delivers {id : Bytes} (waiting : t.waiting id = some d) (awaits : AwaitsResult d t)
    (other : d ≠ c) (opened : (t.conns c).closed = false) :
    ∃ u, (resultAnswer c id).outcome Action.apply t = .returned u () ∧ ReceivesResult c d id t u := by
  obtain ⟨v, settles, answered, worker⟩ := settle_answers waiting awaits other
  have concludes : ∃ u, (Action.conclude c ⟨"200 OK", [], .code 1⟩).apply v = .returned u () ∧
      u.conns d = v.conns d := by
    have still : (v.conns c).closed = false := by rw [worker, opened]
    simp only [Action.apply, Server.send_open still, Result.andThen]
    refine ⟨_, rfl, ?_⟩
    simp only [Server.enter_conns, Server.modify_conns, Server.sent, Server.note_conns, if_neg other]
  obtain ⟨u, ends, same⟩ := concludes
  refine ⟨u, ?_, ?_⟩
  · have found : Reaches Action.apply (workerResult id (some c)) t (return 0) v := by
      unfold workerResult
      apply Reaches.look
      simp only [waiting]
      apply reaches_use awaits.alive
      apply Reaches.perform settles
      simp only [awaits.opened, Bool.false_eq_true, if_false]
      exact reaches_here _ v
    have answers : Reaches Action.apply (resultAnswer c id) t (perform (.conclude c ⟨"200 OK", [], .code 1⟩)) v := by
      unfold resultAnswer
      exact (found.bind _).trans (reaches_here _ v)
    rw [answers.outcome_eq, outcome_perform, ends]
  · unfold ReceivesResult at answered ⊢
    rw [same]
    exact answered

/-- The result that `c` posts is delivered to client `d`. -/
def ResultDelivered (env : Env) (c d : ConnId) (s : Server) : Prop :=
  ∃ u id, (headerCompleted env c).outcome Action.apply s = .returned u () ∧ ReceivesResult c d id s u

theorem not_delivered {env : Env} {routine : Routine Unit}
    (reaches : Reaches Action.apply (headerCompleted env c) s routine t) (beside : Beside c s t)
    (other : d ≠ c) (waits : (s.conns d).status = .clientWaitResult)
    (leaves : (routine.outcome Action.apply t).Ends (fun _ u => u.conns d = t.conns d) fun _ _ => True) :
    ¬ ResultDelivered env c d s := by
  rintro ⟨u, id, returned, status, _⟩
  rw [reaches.outcome_eq] at returned
  rw [returned, Ends_returned] at leaves
  rw [leaves, beside.others d other, waits] at status
  cases status

theorem AwaitsResult.beside (awaits : AwaitsResult d s) (beside : Beside c s t) (other : d ≠ c) : AwaitsResult d t := by
  have same := beside.others d other
  constructor
  · rw [same]
    exact awaits.opened
  · rw [same]
    exact awaits.alive
  · rw [same]
    exact awaits.status
  · rw [same]
    exact awaits.linked

theorem delivered_iff_waiting {env : Env} {id : Bytes} (posts : Posts (s.conns c).http id)
    (workerMode : (s.conns c).workerMode = false) (noid : (s.conns c).noid = false)
    (opened : (s.conns c).closed = false) (awaits : AwaitsResult d s) (other : d ≠ c) :
    ResultDelivered env c d s ↔ id ≠ [] ∧ s.waiting id = some d := by
  by_cases empty : id = []
  · constructor
    · intro delivered
      rcases posts_reaches env posts workerMode noid with answered | thrown
      · obtain ⟨t, reaches, beside⟩ := answered
        rw [empty, List.isEmpty_nil, if_pos rfl] at reaches
        refine absurd delivered (not_delivered reaches beside other awaits.status ?_)
        rw [outcome_perform]
        exact Program.Ends.mono (conclude_others other _) (fun _ _ same => same) fun _ _ _ => trivial
      · obtain ⟨_, error, t, reaches⟩ := thrown
        obtain ⟨u, _, returned, _⟩ := delivered
        rw [reaches.outcome_eq] at returned
        cases returned
    · intro found
      exact absurd empty found.1
  · rcases posts_reaches env posts workerMode noid with answered | thrown
    · obtain ⟨t, reaches, beside⟩ := answered
      rw [if_neg (by simpa using empty)] at reaches
      have same : t.waiting id = s.waiting id := by
        unfold Server.waiting
        rw [beside.waitResponse]
      by_cases waiting : s.waiting id = some d
      · refine ⟨fun _ => ⟨empty, waiting⟩, fun _ => ?_⟩
        obtain ⟨u, returns, status, buffer⟩ := resultAnswer_delivers (same.trans waiting)
          (awaits.beside beside other) other (by rw [beside.closed, opened])
        refine ⟨u, id, by rw [reaches.outcome_eq, returns], status, ?_⟩
        rw [buffer, beside.others d other, beside.body, beside.jsonrpc2]
      · constructor
        · intro delivered
          refine absurd delivered (not_delivered reaches beside other awaits.status ?_)
          exact Program.Ends.mono (resultAnswer_others (by rw [same]; exact waiting) other) (fun _ _ same => same)
            fun _ _ _ => trivial
        · intro found
          exact absurd found.2 waiting
    · exact absurd thrown.1 empty

/-- Among the results, those are delivered whose id is read and has the client's entry. -/
theorem delivered_iff_posted {env : Env} (posting : Posting (s.conns c).http)
    (workerMode : (s.conns c).workerMode = false) (noid : (s.conns c).noid = false)
    (opened : (s.conns c).closed = false) (awaits : AwaitsResult d s) (other : d ≠ c) :
    ResultDelivered env c d s ↔ ∃ id, Posts (s.conns c).http id ∧ id ≠ [] ∧ s.waiting id = some d := by
  by_cases read : ∃ id, Posts (s.conns c).http id
  · obtain ⟨id, posts⟩ := read
    refine ⟨fun delivered => ⟨id, posts, ?_⟩, ?_⟩
    · exact (delivered_iff_waiting posts workerMode noid opened awaits other).mp delivered
    · rintro ⟨id', posts', found⟩
      exact (delivered_iff_waiting posts' workerMode noid opened awaits other).mpr found
  · rw [not_exists] at read
    refine iff_of_false (fun delivered => ?_) fun found => read _ found.choose_spec.1
    rcases unread_reaches env posting read workerMode noid with ⟨t, reaches, beside⟩ | ⟨error, t, reaches⟩
    · refine not_delivered reaches beside other awaits.status ?_ delivered
      rw [outcome_perform]
      exact Program.Ends.mono (conclude_others other _) (fun _ _ same => same) fun _ _ _ => trivial
    · obtain ⟨u, _, returned, _⟩ := delivered
      rw [reaches.outcome_eq] at returned
      cases returned

end Result

/-- A result is delivered to the client exactly if the scanner reads from its body the id that
the client was entered under.  Of bodies that the scanner reads as they are meant, those
deliver that spell a string with the same bytes, and no other spelling of it. -/
theorem result_delivered_iff {env : Env} {c d : ConnId} {s t u : Server} {action : Action}
    (fresh : ∀ id, s.waiting id ≠ some d) (names : action.names s = some d) (done : action.apply s = .returned t ())
    (entries : ∀ id, u.waiting id = some d ↔ t.waiting id = some d) (awaits : AwaitsResult d u)
    (posting : Posting (u.conns c).http) (workerMode : (u.conns c).workerMode = false)
    (noid : (u.conns c).noid = false) (opened : (u.conns c).closed = false) (other : d ≠ c) :
    (ResultDelivered env c d u ↔ ∃ id, Posts (u.conns c).http id ∧ id ≠ [] ∧ action.namedAs s = some id) ∧
    ∀ chars asked posted, Encodes chars asked → Encodes chars posted → AsksUnder (s.conns d).http asked →
      PostsUnder (u.conns c).http posted → (ResultDelivered env c d u ↔ asked = posted ∧ chars ≠ []) := by
  have entered := names_enters names
  rw [done, Ends_returned] at entered
  obtain ⟨own, named, enters⟩ := entered
  have waits : ∀ id, u.waiting id = some d ↔ action.namedAs s = some id := by
    intro id
    rw [entries, enters, named, Option.some.injEq]
    by_cases same : id = own
    · rw [if_pos same]
      exact iff_of_true rfl same.symm
    · rw [if_neg same]
      exact iff_of_false (fresh id) fun equal => same equal.symm
  constructor
  · rw [delivered_iff_posted posting workerMode noid opened awaits other]
    simp only [waits]
  · intro chars asked posted encodesAsked encodesPosted asks under
    rw [delivered_iff_waiting under.posts workerMode noid opened awaits other, waits, and_comm, ne_eq,
      not_congr (encodes_empty_iff encodesPosted), and_congr_left_iff]
    intro nonempty
    have askedNonempty : asked ≠ [] := (not_congr (encodes_empty_iff encodesAsked)).mpr nonempty
    rw [asks_namedAs asks askedNonempty names (by rw [named]; rfl), Option.some.injEq]

def askWithId (id : Bytes) : Input :=
  let body := ascii "\x7b\"id\":\"" ++ id ++ ascii "\"\x7d"
  .recv 1 (ascii "POST /a HTTP/1.1\r\nContent-Length: " ++ addNumber body.length ++ ascii "\r\n\r\n" ++ body) atRest

def postWithId (id : Bytes) : Input :=
  let body := ascii "\x7b\"id\":\"" ++ id ++ ascii "\"\x7d"
  .recv 0 (ascii "POST / HTTP/1.1\r\nType: result\r\nContent-Length: " ++ addNumber body.length ++
    ascii "\r\n\r\n" ++ body) atRest

theorem encodes_plain : Encodes ['a', '/', 'b'] (ascii "a/b") :=
  encodes_ascii rfl (by decide) (by decide) (by decide) <|
    encodes_ascii rfl (by decide) (by decide) (by decide) <|
      encodes_ascii rfl (by decide) (by decide) (by decide) .nil

theorem encodes_escaped : Encodes ['a', '/', 'b'] (ascii "a\\/b") :=
  encodes_ascii rfl (by decide) (by decide) (by decide) <|
    .escape (by decide) <| encodes_ascii rfl (by decide) (by decide) (by decide) .nil

def idBody (id : Bytes) : Bytes := ascii "\x7b\"id\":\"" ++ id ++ ascii "\"\x7d"

def posting (t : Server) (id : Bytes) : Server :=
  t.modify 0 fun conn =>
    { conn with
      http := { conn.http with type := .result, path := ascii "/", id := [], body := idBody id }
      workerMode := false
      noid := false }

def entersFirst (moment : Action × Server) : Bool :=
  let http := (moment.2.conns 1).http
  decide (moment.1.names moment.2 = some 1) && moment.2.waitResponse.isEmpty && decide (http.id = []) &&
    decide (http.json = Json.load http.body 0) && decide (http.body = idBody (ascii "a/b")) &&
    match moment.1.apply moment.2 with
    | .returned t _ =>
        !(t.conns 1).closed && !(t.conns 1).freed && decide ((t.conns 1).status = .clientWaitResult) &&
          decide (0 < (t.conns 1).link) && !(t.conns 0).closed
    | _ => false

def idObject (id : Bytes) : ObjectText where
  lead := []
  gap := []
  members := [⟨[], ascii "id", [], [], .string id, []⟩]
  trail := []

theorem idObject_meant : Meant (idObject (ascii "a/b")) (idBody (ascii "a/b")) where
  bytes := by decide
  valid :=
    { lead := space_nil
      gap := space_nil
      members := by
        have letter : ∀ {a : UInt8} {rest : Bytes}, StringBody rest → 32 ≤ a.toNat → a ≠ Json.quote → a ≠ Json.backslash →
            StringBody (a :: rest) := fun later printable notQuote notEscape => .plain printable notQuote notEscape later
        have key : StringBody (ascii "id") :=
          letter (letter .nil (by decide) (by decide) (by decide)) (by decide) (by decide) (by decide)
        have value : StringBody (ascii "a/b") :=
          letter (letter (letter .nil (by decide) (by decide) (by decide)) (by decide) (by decide) (by decide))
            (by decide) (by decide) (by decide)
        intro member isMember
        rw [List.mem_singleton.mp isMember]
        exact
          { before := space_nil
            key := ⟨key, trivial⟩
            afterKey := space_nil
            beforeValue := space_nil
            value := ⟨value, trivial⟩
            after := space_nil }
      trail := space_nil }
  read := by
    have tame : Tame (ascii "id") ∧ Tame (ascii "a/b") := by decide
    intro member isMember
    rw [List.mem_singleton.mp isMember]
    exact ⟨tame.1, tame.2⟩

theorem result_delivered_same : ∃ s t : Server, ∃ action : Action, action.apply s = .returned t () ∧
    ResultDelivered atRest 0 1 (posting t (ascii "a/b")) := by
  have ran : (afterAll oneWorker (Server.new 1 false [] 0)).map
      (fun s => ((askWithId (ascii "a/b")).run s).1.any entersFirst) = some true := by
    decide +kernel
  obtain ⟨before, _, test⟩ := Option.map_eq_some_iff.mp ran
  obtain ⟨⟨action, s⟩, _, enters⟩ := List.any_eq_true.mp test
  unfold entersFirst at enters
  simp only [Bool.and_eq_true, decide_eq_true_eq, List.isEmpty_iff] at enters
  obtain ⟨⟨⟨⟨⟨names, nothing⟩, own⟩, json⟩, body⟩, rest⟩ := enters
  split at rest
  · rename_i t _ done
    simp only [Bool.and_eq_true, decide_eq_true_eq, Bool.not_eq_true'] at rest
    obtain ⟨⟨⟨⟨opened, alive⟩, status⟩, linked⟩, worker⟩ := rest
    refine ⟨s, t, action, done, ?_⟩
    have asks : AsksUnder (s.conns 1).http (ascii "a/b") :=
      .body (by rw [body]; exact idObject_meant) own json (by decide)
    have fresh : ∀ id, s.waiting id ≠ some 1 := by
      intro id
      rw [Server.waiting, nothing]
      exact fun impossible => by cases impossible
    have http : ((posting t (ascii "a/b")).conns 0) =
        { t.conns 0 with
          http := { (t.conns 0).http with type := .result, path := ascii "/", id := [], body := idBody (ascii "a/b") }
          workerMode := false
          noid := false } := by
      rw [posting, Server.modify_self]
    have client : (posting t (ascii "a/b")).conns 1 = t.conns 1 := by
      rw [posting, Server.modify_conns]
      exact if_neg (by decide)
    have posts : Posting ((posting t (ascii "a/b")).conns 0).http := by
      rw [http]
      exact .typed rfl rfl rfl
    have under : PostsUnder ((posting t (ascii "a/b")).conns 0).http (ascii "a/b") := by
      rw [http]
      exact .first (.inl ⟨rfl, rfl⟩) rfl idObject_meant (by decide)
    have entries : ∀ id, (posting t (ascii "a/b")).waiting id = some 1 ↔ t.waiting id = some 1 := fun id => Iff.rfl
    have awaits : AwaitsResult 1 (posting t (ascii "a/b")) :=
      ⟨by rw [client, opened], by rw [client, alive], by rw [client, status], by rw [client]; exact linked⟩
    have spelled := (@result_delivered_iff atRest 0 1 s t _ action fresh names done entries awaits posts
      (by rw [http]) (by rw [http]) (by rw [http]; exact worker) (by decide)).2
    exact (spelled _ _ _ encodes_plain encodes_plain asks under).mpr ⟨rfl, by simp⟩
  · cases rest

def waitsOn (s : Server) : Bool :=
  decide (s.waiting (ascii "a/b") = some 1) && decide ((postWithId (ascii "a\\/b")).Enabled s) &&
    match ((postWithId (ascii "a\\/b")).run s).2 with
    | .returned after _ =>
        decide ((after.conns 1).status = .clientWaitResult) && (after.conns 1).sendBuffer.isEmpty &&
          !(after.conns 1).closed
    | _ => false

/-- A result with the other spelling of the client's id is refused. -/
theorem other_spelling_refused :
    Encodes ['a', '/', 'b'] (ascii "a/b") ∧ Encodes ['a', '/', 'b'] (ascii "a\\/b") ∧
      ∃ s after, Reachable anything s ∧ s.waiting (ascii "a/b") = some 1 ∧
        (postWithId (ascii "a\\/b")).Enabled s ∧
        ((postWithId (ascii "a\\/b")).run s).2 = .returned after () ∧
        (after.conns 1).status = .clientWaitResult ∧ (after.conns 1).sendBuffer = [] ∧
        (after.conns 1).closed = false := by
  have ran : (afterAll (oneWorker ++ [askWithId (ascii "a/b")]) (Server.new 1 false [] 0)).map waitsOn = some true := by
    decide +kernel
  obtain ⟨s, afterEq, test⟩ := Option.map_eq_some_iff.mp ran
  unfold waitsOn at test
  simp only [Bool.and_eq_true, decide_eq_true_eq] at test
  obtain ⟨⟨waiting, enabled⟩, rest⟩ := test
  split at rest
  · rename_i after _ returned
    simp only [Bool.and_eq_true, decide_eq_true_eq, List.isEmpty_iff, Bool.not_eq_true'] at rest
    obtain ⟨⟨status, nothing⟩, opened⟩ := rest
    exact ⟨encodes_plain, encodes_escaped, s, after, reachable_afterAll (.new 1 false [] 0) afterEq, waiting, enabled,
      returned, status, nothing, opened⟩
  · cases rest

end Ijson
