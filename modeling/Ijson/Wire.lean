/-
What reaches a client.

The bytes that `::send` takes from a connection are, over a whole run, the
beginning of a sequence of whole messages: the responses given to it and the
published messages handed to it, one after another.
-/

import Ijson.PublishedTexts
import Ijson.Registrations
import Ijson.Speech
import Ijson.TaskMessage

namespace Ijson

open Program

/-! ### Texts -/

/-- A message as HTTP has it: its lines, an empty one, and the body. -/
def Parsed.written (parsed : Parsed) : Bytes :=
  (parsed.first :: parsed.headers).flatMap (· ++ ascii "\r\n") ++ ascii "\r\n" ++ parsed.body

namespace Response

/-- The body `done` sends. -/
def body (jsonrpc2 : Bool) (response : Response) : Bytes :=
  match response.payload with
  | .bytes body => body
  | .code error => if jsonrpc2 then errorBody error else []
  | .nothing => []

/-- The lines in front of the length. -/
def frontLines (keepAlive : Bool) (response : Response) : List Bytes :=
  (if keepAlive then [headerLine "Connection" (ascii "keep-alive")] else []) ++
    response.headers.map fun header => headerLine header.1 header.2

/-- The message the response means. -/
def meant (jsonrpc2 keepAlive : Bool) (response : Response) : Parsed where
  first := ascii "HTTP/1.1 " ++ ascii response.status
  headers := response.frontLines keepAlive ++
    [headerLine "Content-Length" (addNumber (response.body jsonrpc2).length)]
  body := response.body jsonrpc2
  rest := []

/-- What `HttpSender` writes is the message that is meant. -/
theorem text_eq (jsonrpc2 keepAlive : Bool) (response : Response) :
    text jsonrpc2 (keepAlive, response) = (response.meant jsonrpc2 keepAlive).written := by
  have tailEq : tail jsonrpc2 response.payload = withLength (response.body jsonrpc2) := by
    unfold tail body
    cases response.payload with
    | bytes body => rfl
    | code error => cases jsonrpc2 <;> rfl
    | nothing => rfl
  have alive : ascii "Connection: keep-alive\r\n" =
      headerLine "Connection" (ascii "keep-alive") ++ ascii "\r\n" := by
    decide
  have blankLine : ascii "\r\n\r\n" = ascii "\r\n" ++ ascii "\r\n" := by decide
  have length : ascii "Content-Length: " = ascii "Content-Length" ++ ascii ": " := by decide
  rw [text, tailEq, head, withLength, alive, blankLine, length]
  simp only [Parsed.written, meant, frontLines]
  cases keepAlive with
  | false => simp [List.flatMap_append, List.flatMap_map, List.append_assoc, headerLine]
  | true => simp [List.flatMap_append, List.flatMap_map, List.append_assoc, headerLine]

end Response

namespace Said

def text (jsonrpc2 : Bool) : Said → Bytes
  | .response keepAlive given => (given.meant jsonrpc2 keepAlive).written
  | .published _ data => data

/-- The number and the text of a published message. -/
def message? : Said → Option (Nat × Bytes)
  | .response _ _ => none
  | .published d data => some (d, data)

end Said

/-! ### Moments -/

/-- The bytes of `c` that `::send` takes. -/
def writes (c : ConnId) (moment : Action × Server) : Bytes :=
  match moment.1 with
  | .flush d (some taken) => if d = c then (Input.offered moment.2 c).take taken else []
  | _ => []

/-- The published message that `on_send` is about to write. -/
def served (c : ConnId) (s : Server) : Option (Nat × Bytes) :=
  if (s.conns c).sendBuffer.isEmpty then (s.conns c).directMessage.head?.map fun d => (d, (s.direct d).data)
  else none

/-- The published message of which `::send` takes a part. -/
def carries (c : ConnId) (moment : Action × Server) : Option (Nat × Bytes) :=
  match moment.1 with
  | .flush d (some _) => if d = c then served c moment.2 else none
  | _ => none

/-- Everything that has gone out to `c`. -/
def wire (c : ConnId) (moments : List (Action × Server)) : Bytes := moments.flatMap (writes c)

/-- Nothing goes out to `c`. -/
structure Aloof (c : ConnId) (moment : Action × Server) : Prop where
  writes : Ijson.writes c moment = []
  carries : Ijson.carries c moment = none

theorem aloof_other (action : Action) (other : action.flushes = false) (c : ConnId) (s : Server) :
    Aloof c (action, s) := by
  cases action with
  | flush x sent => cases other
  | _ => exact ⟨rfl, rfl⟩

theorem aloof_flush {c x : ConnId} (other : x ≠ c) (sent : Option Nat) (s : Server) :
    Aloof c (.flush x sent, s) := by
  cases sent with
  | none => exact ⟨rfl, rfl⟩
  | some taken => exact ⟨if_neg other, if_neg other⟩

namespace Aloof

variable {c : ConnId} {moment : Action × Server} (aloof : Aloof c moment) (moments : List (Action × Server))

include aloof

theorem wire : Ijson.wire c (moments ++ [moment]) = Ijson.wire c moments := by
  rw [Ijson.wire, List.flatMap_append, List.flatMap_singleton, aloof.writes, List.append_nil]
  rfl

theorem messages : (moments ++ [moment]).filterMap (Ijson.carries c) = moments.filterMap (Ijson.carries c) := by
  rw [List.filterMap_append, List.filterMap_cons_none aloof.carries, List.filterMap_nil, List.append_nil]

end Aloof

/-! ### The invariant -/

/-- The texts of what a connection has been told, one after another. -/
def Server.told (s : Server) (c : ConnId) : Bytes := (s.said c).flatMap (Said.text s.jsonrpc2)

/-- What `c` has been told is in its bytes. -/
structure Story (c : ConnId) (state : Traced) : Prop where
  written : wire c state.2 <+: state.1.told c
  left : (state.1.conns c).closed = false → wire c state.2 ++ (state.1.conns c).sendBuffer = state.1.told c
  messages : (state.1.said c).filterMap Said.message? = state.2.filterMap (carries c)
  wakes : (state.1.conns c).closed = false → (state.1.conns c).sendBuffer ≠ [] →
    (state.1.conns c).writing = true

/-- Nobody has connected as `c` yet. -/
structure Unheard (c : ConnId) (state : Traced) : Prop where
  closed : (state.1.conns c).closed = true
  wire : Ijson.wire c state.2 = []
  messages : state.2.filterMap (carries c) = []
  noted : state.1.said c = []

/-- What is known of the bytes of `c` at any time. -/
structure Voiced (c : ConnId) (state : Traced) : Prop where
  unheard : state.1.accepted ≤ c → Unheard c state
  story : Story c state

theorem Unheard.story {c : ConnId} {state : Traced} (unheard : Unheard c state) : Story c state where
  written := by rw [unheard.wire]; exact List.nil_prefix
  left := fun opened => by rw [unheard.closed] at opened; cases opened
  messages := by rw [unheard.noted, unheard.messages]; rfl
  wakes := fun opened => by rw [unheard.closed] at opened; cases opened

theorem voiced_new (c : ConnId) (threads : Nat) (jsonrpc2 : Bool) (version : Bytes) (startTime : Nat) :
    Voiced c (Server.new threads jsonrpc2 version startTime, []) := by
  have unheard : Unheard c (Server.new threads jsonrpc2 version startTime, []) := ⟨rfl, rfl, rfl, rfl⟩
  exact ⟨fun _ => unheard, unheard.story⟩

section Steps

variable {c : ConnId} {s t : Server} {moments : List (Action × Server)} {action : Action}

theorem Voiced.speaks (voiced : Voiced c (s, moments)) (aloof : Aloof c (action, s))
    (speaks : Speaks s t) : Voiced c (t, moments ++ [(action, s)]) := by
  have wire := aloof.wire moments
  have messages := aloof.messages moments
  constructor
  · intro below
    rw [speaks.accepted] at below
    have unheard := voiced.unheard below
    refine ⟨?_, wire.trans unheard.wire, messages.trans unheard.messages, ?_⟩
    · rw [(speaks.socket c).closed, unheard.closed]
    · rw [speaks.mute c unheard.closed, unheard.noted]
  · have story := voiced.story
    cases closed : (s.conns c).closed with
    | true =>
        have still : (t.conns c).closed = true := by rw [(speaks.socket c).closed, closed]
        have same : t.told c = s.told c := by rw [Server.told, Server.told, speaks.mute c closed, speaks.jsonrpc2]
        refine ⟨?_, fun opened => ?_, ?_, fun opened => ?_⟩
        · rw [wire, same]
          exact story.written
        · rw [still] at opened
          cases opened
        · rw [messages, speaks.mute c closed]
          exact story.messages
        · rw [still] at opened
          cases opened
    | false =>
        obtain ⟨responses, given⟩ := speaks.given c closed
        have whole : Ijson.wire c moments ++ (t.conns c).sendBuffer = t.told c := by
          have texts : ∀ said : Bool × Response, Response.text s.jsonrpc2 said =
              Said.text s.jsonrpc2 (.response said.1 said.2) := fun said => Response.text_eq _ _ _
          have before := story.left closed
          rw [given.buffer, ← List.append_assoc, before, Server.told, Server.told, given.noted,
            speaks.jsonrpc2, List.flatMap_append, List.flatMap_map]
          exact congrArg _ (congrArg (fun text => responses.flatMap text) (funext texts))
        refine ⟨?_, fun _ => ?_, ?_, fun _ nonempty => ?_⟩
        · rw [wire, ← whole]
          exact List.prefix_append _ _
        · rw [wire, whole]
        · have plain : Said.message? ∘ (fun said : Bool × Response => Said.response said.1 said.2) =
              fun _ => none := rfl
          rw [messages, given.noted, List.filterMap_append, List.filterMap_map, story.messages, plain,
            List.filterMap_none, List.append_nil]
        · by_cases quiet : responses = []
          · refine speaks.writing c (story.wakes closed ?_)
            rw [given.buffer, quiet] at nonempty
            simpa using nonempty
          · exact given.wakes quiet

/-- Nothing is said to `c`, which may be closed. -/
structure Hushed (c : ConnId) (s t : Server) : Prop where
  accepted : s.accepted ≤ t.accepted
  jsonrpc2 : t.jsonrpc2 = s.jsonrpc2
  closed : (s.conns c).closed = true → (t.conns c).closed = true
  buffer : (t.conns c).sendBuffer = (s.conns c).sendBuffer
  writing : (t.conns c).writing = (s.conns c).writing
  noted : t.said c = s.said c

namespace Hushed

theorem trans {u : Server} (first : Hushed c s t) (second : Hushed c t u) : Hushed c s u where
  accepted := Nat.le_trans first.accepted second.accepted
  jsonrpc2 := second.jsonrpc2.trans first.jsonrpc2
  closed := fun closed => second.closed (first.closed closed)
  buffer := second.buffer.trans first.buffer
  writing := second.writing.trans first.writing
  noted := second.noted.trans first.noted

theorem beside {u : Server} (hushed : Hushed c s t) (accepted : t.accepted ≤ u.accepted)
    (jsonrpc2 : u.jsonrpc2 = t.jsonrpc2) (conns : u.conns c = t.conns c) (log : u.log = t.log) : Hushed c s u :=
  hushed.trans
    { accepted := accepted
      jsonrpc2 := jsonrpc2
      closed := fun closed => by rw [conns, closed]
      buffer := by rw [conns]
      writing := by rw [conns]
      noted := by rw [Server.said, log]; rfl }

theorem refl (c : ConnId) (s : Server) : Hushed c s s :=
  ⟨Nat.le_refl _, rfl, fun closed => closed, rfl, rfl, rfl⟩

theorem note (hushed : Hushed c s t) (event : Event) (silent : event.silent = true) :
    Hushed c s (t.note event) :=
  hushed.trans ⟨Nat.le_refl _, rfl, fun closed => closed, rfl, rfl, said_silent silent t c⟩

theorem note_other (hushed : Hushed c s t) {event : Event} (other : event.said c = none) :
    Hushed c s (t.note event) :=
  hushed.trans ⟨Nat.le_refl _, rfl, fun closed => closed, rfl, rfl, said_note_other other⟩

theorem modify (hushed : Hushed c s t) (x : ConnId) (change : Conn → Conn)
    (closed : ∀ conn, conn.closed = true → (change conn).closed = true)
    (writer : ∀ conn, (change conn).sendBuffer = conn.sendBuffer ∧ (change conn).writing = conn.writing) :
    Hushed c s (t.modify x change) := by
  have conns : (t.modify x change).conns c = if c = x then change (t.conns x) else t.conns c :=
    Server.modify_conns t x c change
  refine hushed.trans ⟨Nat.le_refl _, rfl, fun before => ?_, ?_, ?_, rfl⟩
  · rw [conns]
    split
    · rename_i same
      exact closed _ (same ▸ before)
    · exact before
  · rw [conns]
    split
    · rename_i same
      rw [same]
      exact (writer _).1
    · rfl
  · rw [conns]
    split
    · rename_i same
      rw [same]
      exact (writer _).2
    · rfl

theorem unlinked (hushed : Hushed c s t) (d : ConnId) : Hushed c s (t.unlinked d) :=
  (hushed.modify d (fun conn => { conn with link := (t.conns d).link - 1 })
    (fun _ closed => closed) fun _ => ⟨rfl, rfl⟩).beside (Nat.le_refl _) rfl rfl rfl

end Hushed

/-- The action says nothing to `c`. -/
abbrev Hushes (c : ConnId) (s : Server) (result : Result) : Prop :=
  result.Ends (fun _ t => Hushed c s t) fun _ t => Hushed c s t

theorem begin_hushes (s : Server) (x : ConnId) (taken line : Bytes) : Hushes c s (s.begin x taken line) := by
  unfold Server.begin
  simp only [Hushes, Ends_andThen]
  have cleared := ((Hushed.refl c s).note (.taken x taken) rfl).modify x
    (fun conn => { conn with http := conn.http.clearRequest conn.workerMode })
    (fun _ closed => closed) fun _ => ⟨rfl, rfl⟩
  refine Ends.mono (Q := fun _ t => Hushed c s t) (E := fun _ t => Hushed c s t) ?_
    (fun _ t after => ?_) fun _ _ after => after
  · split
    · split
      · exact cleared
      · exact cleared
    · split
      · split
        · exact cleared
        · exact cleared
      · have reset := cleared.modify x (fun conn => { conn with failOnDisconnect := false })
          (fun _ closed => closed) fun _ => ⟨rfl, rfl⟩
        rw [Ends_andThen]
        refine Ends.mono (Q := fun _ t => Hushed c s t) (E := fun _ t => Hushed c s t) ?_
          (fun _ t after => after.modify x _ (fun _ closed => closed) fun _ => ⟨rfl, rfl⟩) fun _ _ after => after
        split
        · exact reset
        · exact Server.unlink_ends (fun _ => reset.unlinked _) fun _ => reset.unlinked _
  · refine after.modify x _ (fun conn closed => ?_) fun _ => ⟨rfl, rfl⟩
    simp only [closed, Bool.true_or]

theorem shut_hushed (s : Server) (x : ConnId) :
    Hushed c s ((s.modify x fun conn => { conn with closed := true }).enter (.leaving x)) :=
  ((Hushed.refl c s).modify x (fun conn => { conn with closed := true }) (fun _ _ => rfl)
    fun _ => ⟨rfl, rfl⟩).beside (Nat.le_refl _) rfl rfl rfl

theorem retire_hushes (s : Server) (x : ConnId) : Hushes c s ((Action.retire x).apply s) := by
  have away := (Hushed.refl c s).unlinked x
  simp only [Action.apply, Hushes, Ends_andThen]
  refine Server.unlink_ends (fun _ => ?_) fun _ => away
  exact (away.modify x (fun conn => { conn with connected := false }) (fun _ closed => closed)
    fun _ => ⟨rfl, rfl⟩).beside (Nat.le_refl _) rfl rfl rfl

theorem Voiced.hushed (voiced : Voiced c (s, moments)) (aloof : Aloof c (action, s))
    (hushed : Hushed c s t) : Voiced c (t, moments ++ [(action, s)]) := by
  have wire := aloof.wire moments
  have messages := aloof.messages moments
  have same : t.told c = s.told c := by rw [Server.told, Server.told, hushed.noted, hushed.jsonrpc2]
  have before : (t.conns c).closed = false → (s.conns c).closed = false := by
    intro opened
    cases closed : (s.conns c).closed with
    | false => rfl
    | true =>
        rw [hushed.closed closed] at opened
        cases opened
  constructor
  · intro below
    have unheard := voiced.unheard (Nat.le_trans hushed.accepted below)
    exact ⟨hushed.closed unheard.closed, wire.trans unheard.wire, messages.trans unheard.messages,
      hushed.noted.trans unheard.noted⟩
  · have story := voiced.story
    refine ⟨?_, fun opened => ?_, ?_, fun opened nonempty => ?_⟩
    · rw [wire, same]
      exact story.written
    · rw [wire, hushed.buffer, same]
      exact story.left (before opened)
    · rw [messages, hushed.noted]
      exact story.messages
    · rw [hushed.writing]
      exact story.wakes (before opened) (hushed.buffer ▸ nonempty)

theorem Voiced.accept (voiced : Voiced c (s, moments)) (loop : Nat) (garbage : Garbage) {t : Server}
    (accepted : (Action.accept loop garbage).apply s = .returned t ()) :
    Voiced c (t, moments ++ [(.accept loop garbage, s)]) := by
  cases accepted
  have aloof := aloof_other (.accept loop garbage) rfl c s
  by_cases own : c = s.accepted
  · have unheard := voiced.unheard (Nat.le_of_eq own.symm)
    have wire := aloof.wire moments
    have messages := aloof.messages moments
    have silent : ((s.log.filterMap (Event.said c)) : List Said) = [] := unheard.noted
    refine ⟨fun below => absurd below (by rw [own]; exact Nat.not_succ_le_self _), ?_, fun _ => ?_, ?_,
      fun _ nonempty => ?_⟩
    · rw [wire, unheard.wire]
      exact List.nil_prefix
    · change _ = (s.log.filterMap (Event.said c)).flatMap _
      rw [wire, unheard.wire, silent, own]
      simp [Server.set, Conn.new]
    · change (s.log.filterMap (Event.said c)).filterMap _ = _
      rw [messages, unheard.messages, silent]
      rfl
    · rw [own] at nonempty
      simp [Server.set, Conn.new] at nonempty
  · refine voiced.hushed aloof ((Hushed.refl c s).beside (Nat.le_succ _) rfl ?_ rfl)
    simp [Server.set, own]

theorem unlinkDirect_leaves (d : Nat) : (s.unlinkDirect d).Ends
    (fun _ t => t.conns = s.conns ∧ t.jsonrpc2 = s.jsonrpc2 ∧ t.log = s.log) fun _ _ => False := by
  unfold Server.unlinkDirect
  simp only
  split
  · trivial
  · exact ⟨rfl, rfl, rfl⟩

theorem unlinkDirect_hushes (hushed : Hushed c s t) (d : Nat) : Hushes c s (t.unlinkDirect d) := by
  unfold Server.unlinkDirect
  simp only
  split
  · trivial
  · exact hushed.beside (Nat.le_refl _) rfl rfl rfl

theorem flush_hushes {x : ConnId} (other : x ≠ c) (s : Server) (sent : Option Nat) :
    Hushes c s (s.flush x sent) := by
  have changed : ∀ {t : Server} (change : Conn → Conn), Hushed c s t → Hushed c s (t.modify x change) := by
    intro t change hushed
    refine hushed.beside (Nat.le_refl _) rfl ?_ rfl
    rw [Server.modify_conns, if_neg (Ne.symm other)]
  unfold Server.flush
  simp only [Hushes, Ends_andThen]
  refine Ends.mono (Q := fun _ t => Hushed c s t) (E := fun _ t => Hushed c s t) ?_
    (fun _ t after => changed _ after) fun _ _ after => after
  split
  · unfold Server.popDirect
    cases (s.conns x).directMessage with
    | nil => exact Hushed.refl c s
    | cons d rest =>
        have popped := changed (fun conn => { conn with directMessage := rest }) (Hushed.refl c s)
        simp only [Ends_andThen]
        refine Ends.mono (unlinkDirect_hushes (popped.note (.task x (s.direct d).source) rfl) d)
          (fun _ t after => ?_) fun _ _ after => after
        cases sent with
        | none => exact after.beside (Nat.le_refl _) rfl rfl rfl
        | some taken =>
            have silent : Event.said c (.message x d (s.direct d).data) = none := if_neg other
            have counted : Hushed c s { t with stats := { t.stats with send := t.stats.send + taken } } :=
              after.beside (Nat.le_refl _) rfl rfl rfl
            exact (changed _ counted).note_other silent
  · cases sent with
    | none => exact Hushed.refl c s
    | some taken => exact changed _ ((Hushed.refl c s).beside (Nat.le_refl _) rfl rfl rfl)

variable {past : List (Action × Server)}

theorem Story.ended (story : Story c (t, past)) (opened : (t.conns c).closed = false) :
    Story c (t.modify c fun conn =>
      if conn.sendBuffer.isEmpty then
        if conn.keepAlive then { conn with writing := false } else { conn with closed := true }
      else conn, past) := by
  have buffer : ∀ conn : Conn, (if conn.sendBuffer.isEmpty then
      if conn.keepAlive then { conn with writing := false } else { conn with closed := true }
      else conn).sendBuffer = conn.sendBuffer := by
    intro conn
    split
    · split
      · rfl
      · rfl
    · rfl
  refine ⟨story.written, fun _ => ?_, story.messages, fun _ nonempty => ?_⟩
  · simp only [Server.modify_self, buffer]
    exact story.left opened
  · simp only [Server.modify_self, buffer] at nonempty ⊢
    rw [if_neg (by simpa using nonempty)]
    exact story.wakes opened nonempty

theorem Story.flush_buffer (story : Story c (s, moments)) (opened : (s.conns c).closed = false)
    (writing : (s.conns c).writing = true) (left : (s.conns c).sendBuffer ≠ []) (sent : Option Nat) :
    (s.flush c sent).Ends (fun _ t => Story c (t, moments ++ [(.flush c sent, s)]))
      fun _ t => Story c (t, moments ++ [(.flush c sent, s)]) := by
  have full : (s.conns c).sendBuffer.isEmpty = false := by simpa using left
  have unserved : served c s = none := by rw [served, full]; rfl
  have offered : Input.offered s c = (s.conns c).sendBuffer := by
    unfold Input.offered
    split
    · rename_i empty _
      exact absurd empty left
    · rfl
  have messages : (moments ++ [(Action.flush c sent, s)]).filterMap (carries c) = moments.filterMap (carries c) := by
    rw [List.filterMap_append]
    cases sent <;> simp [carries, unserved]
  unfold Server.flush
  simp only [full, Bool.false_eq_true, if_false]
  cases sent with
  | none =>
      have same : wire c (moments ++ [(.flush c none, s)]) = wire c moments := by simp [wire, writes]
      exact ⟨same ▸ story.written, fun _ => same ▸ story.left opened, messages ▸ story.messages,
        fun _ _ => writing⟩
  | some taken =>
      have more : wire c (moments ++ [(.flush c (some taken), s)]) =
          wire c moments ++ (s.conns c).sendBuffer.take taken := by
        simp [wire, writes, offered]
      have whole : wire c (moments ++ [(.flush c (some taken), s)]) ++ (s.conns c).sendBuffer.drop taken =
          s.told c := by
        rw [more, List.append_assoc, List.take_append_drop, story.left opened]
      refine Story.ended ⟨whole ▸ List.prefix_append _ _, fun _ => ?_, messages ▸ story.messages, fun _ _ => ?_⟩ ?_
      · rw [Server.modify_self]
        exact whole
      · rw [Server.modify_self]
        exact writing
      · rw [Server.modify_self]
        exact opened

/-- With nothing in the buffer the first published message is written. -/
theorem Story.flush_direct (story : Story c (s, moments)) (opened : (s.conns c).closed = false)
    (writing : (s.conns c).writing = true) (empty : (s.conns c).sendBuffer = []) (sent : Option Nat) :
    (s.flush c sent).Ends (fun _ t => Story c (t, moments ++ [(.flush c sent, s)]))
      fun _ t => Story c (t, moments ++ [(.flush c sent, s)]) := by
  have isEmpty : (s.conns c).sendBuffer.isEmpty = true := by rw [empty]; rfl
  have written := story.left opened
  rw [empty, List.append_nil] at written
  unfold Server.flush
  simp only [isEmpty, if_true, Ends_andThen]
  cases queue : (s.conns c).directMessage with
  | nil =>
      have unserved : served c s = none := by rw [served, isEmpty, queue]; rfl
      have offered : Input.offered s c = [] := by
        unfold Input.offered
        rw [empty, queue]
      have messages : (moments ++ [(Action.flush c sent, s)]).filterMap (carries c) =
          moments.filterMap (carries c) := by
        rw [List.filterMap_append]
        cases sent <;> simp [carries, unserved]
      have same : wire c (moments ++ [(.flush c sent, s)]) = wire c moments := by
        rw [wire, List.flatMap_append]
        cases sent <;> simp [wire, writes, offered]
      unfold Server.popDirect
      rw [queue]
      refine Story.ended ⟨same ▸ story.written, fun _ => ?_, messages ▸ story.messages, fun _ _ => writing⟩ opened
      rw [same]
      exact story.left opened
  | cons d rest =>
      have turn : served c s = some (d, (s.direct d).data) := by rw [served, isEmpty, queue]; rfl
      have offered : Input.offered s c = (s.direct d).data := by
        unfold Input.offered
        rw [empty, queue]
      unfold Server.popDirect
      simp only [queue, Ends_andThen]
      refine Ends.mono (unlinkDirect_leaves d) (fun _ t after => ?_) fun _ _ impossible => impossible.elim
      obtain ⟨conns, jsonrpc2, log⟩ := after
      have own : t.conns c = { s.conns c with directMessage := rest } := by
        rw [conns, Server.note_conns, Server.modify_self]
      have noted : t.said c = s.said c := by
        rw [Server.said, log]
        exact said_note_other rfl
      have told : t.told c = s.told c := by
        rw [Server.told, Server.told, noted, jsonrpc2]
        rfl
      cases sent with
      | none =>
          have same : wire c (moments ++ [(.flush c none, s)]) = wire c moments := by simp [wire, writes]
          refine ⟨?_, fun _ => ?_, ?_, fun _ left => absurd ?_ left⟩
          · rw [same, written]
            exact told ▸ List.prefix_rfl
          · rw [same, written]
            change _ ++ (t.conns c).sendBuffer = t.told c
            rw [own, empty, List.append_nil, told]
          · change (t.said c).filterMap _ = _
            rw [noted, story.messages, List.filterMap_append]
            simp [carries]
          · change (t.conns c).sendBuffer = []
            rw [own, empty]
      | some taken =>
          -- the whole text is noted, and what `::send` has not taken goes to the buffer
          let u := { t with stats := { t.stats with send := t.stats.send + taken } }.modify c fun conn =>
            { conn with sendBuffer := conn.sendBuffer ++ (s.direct d).data.drop taken }
          have saidNow : (u.note (.message c d (s.direct d).data)).said c =
              s.said c ++ [.published d (s.direct d).data] := by
            have own : Event.said c (.message c d (s.direct d).data) = some (.published d (s.direct d).data) :=
              if_pos rfl
            rw [said_note own, ← noted]
            rfl
          have toldNow : (u.note (.message c d (s.direct d).data)).told c = s.told c ++ (s.direct d).data := by
            rw [Server.told, saidNow, Server.told, List.flatMap_append, List.flatMap_singleton]
            change List.flatMap (Said.text t.jsonrpc2) _ ++ _ = _
            rw [jsonrpc2]
            rfl
          have more : wire c (moments ++ [(.flush c (some taken), s)]) =
              wire c moments ++ (s.direct d).data.take taken := by
            simp [wire, writes, offered]
          have whole : wire c (moments ++ [(.flush c (some taken), s)]) ++ (s.direct d).data.drop taken =
              s.told c ++ (s.direct d).data := by
            rw [more, List.append_assoc, List.take_append_drop, written]
          have conn : (u.note (.message c d (s.direct d).data)).conns c =
              { t.conns c with sendBuffer := (t.conns c).sendBuffer ++ (s.direct d).data.drop taken } := by
            rw [Server.note_conns, Server.modify_self]
          refine Story.ended ⟨?_, fun _ => ?_, ?_, fun _ _ => ?_⟩ ?_
          · rw [toldNow]
            exact whole ▸ List.prefix_append _ _
          · rw [toldNow, conn, own, empty, List.nil_append]
            exact whole
          · rw [saidNow, List.filterMap_append, List.filterMap_append, story.messages]
            simp [carries, turn, Said.message?]
          · rw [conn, own]
            exact writing
          · rw [conn, own]
            exact opened

end Steps

/-! ### Runs -/

/-- Every action but `on_send` keeps what is known. -/
theorem voiced_kept (c : ConnId) : KeptElsewhere (Voiced c) := by
  intro action other state voiced _
  have aloof := aloof_other action other c state.1
  have hushes : Hushes c state.1 (action.apply state.1) →
      (action.apply state.1).Ends (fun _ t => Voiced c (t, state.2 ++ [(action, state.1)]))
        fun _ t => Voiced c (t, state.2 ++ [(action, state.1)]) := fun hushes =>
    Ends.mono hushes (fun _ _ hushed => voiced.hushed aloof hushed) fun _ _ hushed => voiced.hushed aloof hushed
  refine recording_ends ?_
  cases socket : action.socket with
  | false =>
      exact Ends.mono (Speaks.apply_speaks state.1 socket) (fun _ _ speaks => voiced.speaks aloof speaks)
        fun _ _ speaks => voiced.speaks aloof speaks
  | true =>
      cases action with
      | accept loop garbage => exact voiced.accept loop garbage rfl
      | begin x taken line => exact hushes (begin_hushes state.1 x taken line)
      | shut x => exact voiced.hushed aloof (shut_hushed state.1 x)
      | retire x => exact hushes (retire_hushes state.1 x)
      | flush x sent => cases other
      | _ => cases socket

theorem voiced_flush (c x : ConnId) (sent : Option Nat) (state : Traced) (voiced : Voiced c state)
    (writable : Writable x state.1) :
    (recording Action.apply (.flush x sent) state).Ends (fun _ => Voiced c) fun _ => Voiced c := by
  refine recording_ends ?_
  obtain ⟨s, moments⟩ := state
  by_cases own : x = c
  · subst own
    have story := voiced.story
    have opened := writable.1.2.2.1
    have told : (s.flush x sent).Ends (fun _ t => Story x (t, moments ++ [(.flush x sent, s)]))
        fun _ t => Story x (t, moments ++ [(.flush x sent, s)]) := by
      by_cases empty : (s.conns x).sendBuffer = []
      · exact story.flush_direct opened writable.2 empty sent
      · exact story.flush_buffer opened writable.2 empty sent
    have known : ∀ t : Server, Unmoved ⟨fun _ => True, 0⟩ s t → ¬ t.accepted ≤ x := fun t unmoved =>
      unmoved.accepted ▸ Nat.not_le.mpr writable.1.1
    exact Ends.mono (Ends.both told (Unmoved.flush_unmoved s x sent))
      (fun _ t after => ⟨fun below => absurd below (known t after.2), after.1⟩)
      fun _ t after => ⟨fun below => absurd below (known t after.2), after.1⟩
  · have aloof := aloof_flush own sent s
    exact Ends.mono (flush_hushes own s sent) (fun _ _ hushed => voiced.hushed aloof hushed)
      fun _ _ hushed => voiced.hushed aloof hushed

theorem Trail.voiced {moments : List (Action × Server)} {s : Server} (trail : Trail moments s) (c : ConnId) :
    Voiced c (s, moments) :=
  trail.keeps (voiced_kept c) (voiced_flush c) (voiced_new c)

/-- What is written to `c` of a published message is what `pub` made. -/
structure Sourced (c : ConnId) (state : Traced) : Prop where
  printed : Printed state
  carried : ∀ message ∈ state.2.filterMap (carries c), Prints message.1 message.2 state.2

theorem served_printed {c : ConnId} {state : Traced} (printed : Printed state) {message : Nat × Bytes}
    (turn : served c state.1 = some message) : Prints message.1 message.2 state.2 := by
  unfold served at turn
  split at turn
  · rw [Option.map_eq_some_iff] at turn
    obtain ⟨d, first, rfl⟩ := turn
    exact printed.texts d (printed.waits c d (List.mem_of_head? first))
  · cases turn

theorem carries_served {c : ConnId} {moment : Action × Server} {message : Nat × Bytes}
    (carried : carries c moment = some message) : served c moment.2 = some message := by
  obtain ⟨action, s⟩ := moment
  cases action with
  | flush x sent =>
      cases sent with
      | none => cases carried
      | some taken =>
          change (if x = c then served c s else none) = some message at carried
          split at carried
          · exact carried
          · cases carried
  | _ => cases carried

theorem sourced_step (c : ConnId) (action : Action) (state : Traced) (sourced : Sourced c state)
    (made : action.made state.1) :
    (recording Action.apply action state).Ends (fun _ => Sourced c) fun _ => Sourced c := by
  have carried : ∀ message ∈ (state.2 ++ [(action, state.1)]).filterMap (carries c),
      Prints message.1 message.2 (state.2 ++ [(action, state.1)]) := by
    intro message member
    rw [List.filterMap_append] at member
    rcases List.mem_append.mp member with before | now
    · exact (sourced.carried message before).append _
    · obtain ⟨moment, isLast, carriedEq⟩ := List.mem_filterMap.mp now
      rw [List.mem_singleton.mp isLast] at carriedEq
      exact (served_printed sourced.printed (carries_served carriedEq)).append _
  exact recording_ends (Ends.mono (sourced.printed.step made) (fun _ _ printed => ⟨printed, carried⟩)
    fun _ _ printed => ⟨printed, carried⟩)

theorem Trail.sourced {moments : List (Action × Server)} {s : Server} (trail : Trail moments s) (c : ConnId) :
    Sourced c (s, moments) :=
  trail.keeps (fun action _ => sourced_step c action) (fun x sent state sourced _ =>
    sourced_step c (.flush x sent) state sourced trivial) fun threads jsonrpc2 version startTime =>
      ⟨printed_new threads jsonrpc2 version startTime, fun _ member => absurd member List.not_mem_nil⟩

/-- What has gone out to a client is the beginning of whole messages: the responses
given to it and the texts `pub` made for it, all of them, in the order they were
given and taken up.  The rest is in the buffer, and then the socket is set to write. -/
theorem whole_messages_written {moments : List (Action × Server)} {s : Server} (trail : Trail moments s)
    (c : ConnId) :
    wire c moments <+: (s.said c).flatMap (Said.text s.jsonrpc2) ∧
      ((s.conns c).closed = false →
        wire c moments ++ (s.conns c).sendBuffer = (s.said c).flatMap (Said.text s.jsonrpc2) ∧
          ((s.conns c).sendBuffer ≠ [] → (s.conns c).writing = true)) ∧
      (s.said c).filterMap Said.message? = moments.filterMap (carries c) ∧
      ∀ message ∈ (s.said c).filterMap Said.message?, Prints message.1 message.2 moments := by
  have story := (trail.voiced c).story
  have sourced := (trail.sourced c).carried
  exact ⟨story.written, fun opened => ⟨story.left opened, story.wakes opened⟩, story.messages,
    story.messages ▸ sourced⟩

/-- Connection 0 is answered 400 to a task without a queue, and asks with `get+`; of the message
published to it 40 bytes are written. -/
def fortyWritten : List Input :=
  [.accept 0 ⟨false, false, false⟩, .accept 0 ⟨false, false, false⟩,
    .recv 0 (ascii "GET /a HTTP/1.1\r\n\r\n") atRest, .send 0 (some 69),
    .recv 0 (ascii "GET /a HTTP/1.1\r\nType: get+\r\n\r\n") atRest,
    .recv 1 (ascii "GET /a HTTP/1.1\r\nType: pub\r\n\r\n") atRest,
    .send 0 (some 40)]
theorem whole_messages_written_forty : ∃ moments s, Trail moments s ∧
    s.said 0 = [.response true ⟨"404 Not Found", [], .code (-32601)⟩,
      .published 0 (Routine.published (ascii "a") [])] ∧
    wire 0 moments ++ (s.conns 0).sendBuffer = (s.said 0).flatMap (Said.text s.jsonrpc2) ∧
    (s.conns 0).sendBuffer.length = 44 ∧ (s.conns 0).writing = true := by
  have ran : (afterAll fortyWritten (Server.new 1 false [] 0)).map (fun s =>
      (s.said 0, (s.conns 0).closed, (s.conns 0).sendBuffer.length)) =
      some ([.response true ⟨"404 Not Found", [], .code (-32601)⟩,
        .published 0 (Routine.published (ascii "a") [])], false, 44) := by
    decide +kernel
  obtain ⟨s, sEq, facts⟩ := Option.map_eq_some_iff.mp ran
  simp only [Prod.mk.injEq] at facts
  have trail := trail_afterAll (.new 1 false [] 0) sEq
  rw [List.nil_append] at trail
  obtain ⟨whole, wakes⟩ := (whole_messages_written trail 0).2.1 facts.2.1
  have left : (s.conns 0).sendBuffer ≠ [] := by
    intro empty
    rw [empty] at facts
    cases facts.2.2
  exact ⟨_, s, trail, facts.1, whole, facts.2.2, wakes left⟩

end Ijson
