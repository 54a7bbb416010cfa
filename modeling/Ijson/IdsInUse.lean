/-
The ids in use over a whole run.

An id comes into use where a connection is named, where a client is given its id,
and where a result is waited for.  Each one was chosen by a client or worker or
made by `generate_id` before, and the counter tells how long ago that was.
-/

import Ijson.GeneratedIds

namespace Ijson

open Program

/-- A client or worker chooses the id: the header line just taken or the member just
read says it, or the JSON of a client that is asked for its id. -/
def Chooses (moment : Action × Server) (id : Bytes) : Prop :=
  match moment.1 with
  | .edit c taken _ =>
      let http := (moment.2.conns c).http
      http.headerIn taken = some (.id id) ∨ http.headerIn taken = some (.setId id) ∨
        http.json.key = ascii "id" ∧ http.json.value = id
  | action => ∃ d json, action.asksId moment.2 = some d ∧ Http.scanFor (ascii "id")
      ((moment.2.conns d).http.json.data.length + 1) (moment.2.conns d).http.json = .ok (json, some id)

/-- The id was chosen or made at one of the moments. -/
def Rooted (past : List (Action × Server)) (id : Bytes) : Prop :=
  id = [] ∨ ∃ moment ∈ past, Chooses moment id ∨ generates moment = some id

/-- Every id in use comes from a moment before. -/
def AllRooted (state : Recorded Server Action) : Prop :=
  ∀ id, state.1.uses id → Rooted state.2 id

/-- An edit writes no other ids than those it chooses. -/
def Entitled (action : Action) (s : Server) : Prop :=
  ∀ c taken change, action = .edit c taken change → ∀ id,
    (change (s.conns c).http).id = id ∨ (change (s.conns c).http).connectionId = id →
      ((s.conns c).http.id = id ∨ (s.conns c).http.connectionId = id) ∨ Chooses (action, s) id

/-! ### The code is entitled to what it writes -/

theorem entitled_of_other {action : Action} {s : Server}
    (other : ∀ c taken change, action ≠ .edit c taken change) : Entitled action s :=
  fun c taken change same => absurd same (other c taken change)

theorem entitled_of_labels {s : Server} {c : ConnId} {taken : Bytes} {change : Http → Http}
    (same : (change (s.conns c).http).labels = (s.conns c).http.labels) :
    Entitled (.edit c taken change) s := by
  intro c taken change edit id bears
  cases edit
  rw [Http.labels, Http.labels, Prod.mk.injEq] at same
  rw [same.1, same.2] at bears
  exact Or.inl bears

theorem entitled_frees : Routine.Frees Entitled := by
  constructor
  · intro action serves s
    refine entitled_of_other fun c taken change same => ?_
    rw [same] at serves
    cases serves
  · intro c change _ _ s assigns d taken changed edit id bears
    cases edit
    rw [assigns.1] at bears
    rcases bears with own | own
    · rcases assigns.2 with kept | ⟨key, value⟩
      · exact Or.inl (Or.inl (kept.symm.trans own))
      · exact Or.inr (Or.inr (Or.inr ⟨key, value.symm.trans own⟩))
    · exact Or.inl (Or.inr own)

/-- A header line names the request or its connection. -/
theorem entitled_header {s : Server} {c : ConnId} {taken : Bytes} {header : Http.Header} {now start : Nat}
    {place : Place} (reads : (s.conns c).http.headerIn taken = some header) :
    Entitled (.edit c taken fun _ => (s.conns c).http.store now place start header) s := by
  cases header with
  | id value =>
      intro d other change edit id bears
      cases edit
      rcases bears with rfl | own
      · exact Or.inr (Or.inl reads)
      · exact Or.inl (Or.inr own)
  | setId value =>
      intro d other change edit id bears
      cases edit
      rcases bears with own | rfl
      · exact Or.inl (Or.inl own)
      · exact Or.inr (Or.inr (Or.inl reads))
  | _ => exact entitled_of_labels rfl

theorem entitled_parses (env : Env) (c : ConnId) : Routine.Parses Entitled env c where
  plain := fun action reads other s => entitled_of_other fun d taken change same => by
    subst same
    cases reads
    exact other taken change rfl
  edit := fun taken change s same _ => entitled_of_labels (congrArg Prod.snd (same (s.conns c).http))
  header := fun taken header place start s reads => entitled_header reads

theorem routine_entitled (input : Input) (s : Server) : Routine.Heeds Entitled (input.routine s) :=
  Input.routine_frees entitled_frees
    (fun _ _ _ => entitled_of_other fun _ _ _ => Action.noConfusion) entitled_parses
    (fun _ _ _ => entitled_of_labels rfl)
    (fun _ _ _ _ => entitled_of_other fun _ _ _ => Action.noConfusion)
    fun c _ _ _ => Routine.anyRegister_heeds (entitled_frees.attends c) fun _ _ =>
      entitled_of_other fun _ _ _ => Action.noConfusion

/-! ### One action -/

/-- What an id in use behind an action comes from. -/
def Explained (action : Action) (s : Server) (id : Bytes) : Prop :=
  id = [] ∨ s.uses id ∨ Chooses (action, s) id ∨ generates (action, s) = some id

/-- The action explains for the ids in use. -/
abbrev Explains (action : Action) (s : Server) (result : Result) : Prop :=
  result.Ends (fun _ t => ∀ id, t.uses id → Explained action s id)
    fun _ t => ∀ id, t.uses id → Explained action s id

theorem Unmoved.explained {action : Action} {s t : Server} {id : Bytes}
    (unmoved : Unmoved ⟨Chooses (action, s), action.random⟩ s t)
    (counted : t.generated = s.generated + if calls (action, s) then 1 else 0) (used : t.uses id) :
    Explained action s id := by
  rcases unmoved.uses id used with early | chosen | ⟨index, low, high, made⟩
  · exact Or.inr (Or.inl early)
  · exact Or.inr (Or.inr (Or.inl chosen))
  · cases called : calls (action, s) with
    | false =>
        rw [called] at counted
        simp only [Bool.false_eq_true, if_false] at counted
        omega
    | true =>
        rw [called, if_pos rfl] at counted
        obtain ⟨other, generated⟩ := Option.isSome_iff_exists.mp called
        have first : index = s.generated := by omega
        have same : id = other := by rw [made, first, generates_eq generated]
        exact Or.inr (Or.inr (Or.inr (same ▸ generated)))

/-- Where one connection is changed, only what it bears is to be explained for. -/
theorem explained_of_conn {action : Action} {s t : Server} {c : ConnId} {id : Bytes} (used : t.uses id)
    (others : ∀ x, x ≠ c → (t.conns x).http.labels = (s.conns x).http.labels)
    (waits : t.waitResponse = s.waitResponse)
    (own : (t.conns c).http.id = id ∨ (t.conns c).http.connectionId = id → Explained action s id) :
    Explained action s id := by
  rcases used with ⟨x, bears⟩ | ⟨d, pending⟩
  · by_cases same : x = c
    · rw [same] at bears
      exact own bears
    · have kept := others x same
      rw [Http.labels, Http.labels, Prod.mk.injEq] at kept
      rw [kept.1, kept.2] at bears
      exact Or.inr (Or.inl (Or.inl ⟨x, bears⟩))
  · rw [waits] at pending
    exact Or.inr (Or.inl (Or.inr ⟨d, pending⟩))

theorem explained_of_change {action : Action} {s t : Server} {c : ConnId} {conn : Conn} {id : Bytes}
    (used : t.uses id) (conns : ∀ x, t.conns x = if x = c then conn else s.conns x)
    (waits : t.waitResponse = s.waitResponse)
    (own : conn.http.id = id ∨ conn.http.connectionId = id → Explained action s id) : Explained action s id := by
  refine explained_of_conn (c := c) used (fun x other => ?_) waits ?_
  · rw [conns x, if_neg other]
  · rw [conns c, if_pos rfl]
    exact own

theorem labels_modify (t : Server) (c : ConnId) (change : Conn → Conn)
    (keeps : ∀ conn, (change conn).http.labels = conn.http.labels) (x : ConnId) :
    ((t.modify c change).conns x).http.labels = (t.conns x).http.labels := by
  rw [Server.modify_conns]
  by_cases own : x = c
  · rw [if_pos own, own, keeps]
  · rw [if_neg own]

theorem bears_explained {action : Action} {s : Server} {c : ConnId} {id : Bytes}
    (bears : (s.conns c).http.id = id ∨ (s.conns c).http.connectionId = id) : Explained action s id :=
  Or.inr (Or.inl (Or.inl ⟨c, bears⟩))

theorem begin_explains (s : Server) (c : ConnId) (taken line : Bytes) :
    Explains (.begin c taken line) s (s.begin c taken line) := by
  have cleared : ∀ {id : Bytes} {http : Http}, http.id = [] → http.connectionId = (s.conns c).http.connectionId →
      http.id = id ∨ http.connectionId = id → Explained (.begin c taken line) s id := by
    intro id http empty same bears
    rcases bears with own | own
    · exact Or.inl (own.symm.trans empty)
    · exact bears_explained (Or.inr (same.symm.trans own))
  refine Ends.mono (Ends.both (begin_ends s c taken line) (Server.begin_keeps c taken line))
    (fun _ t after id used => ?_) fun _ t after id used => ?_
  · refine explained_of_conn (c := c) used after.1.labels (congrArg Ids.waitResponse after.2) (cleared ?_ ?_)
    · rw [after.1.http]
      rfl
    · rw [after.1.http]
      rfl
  · refine explained_of_conn (c := c) used after.1.labels (congrArg Ids.waitResponse after.2) (cleared ?_ ?_)
    · rw [after.1.http]
      rfl
    · rw [after.1.http]
      rfl

theorem expire_explains (s : Server) (i j p now : Nat) : Explains (.expire i j p now) s (s.expire i j p now) := by
  unfold Server.expire
  split
  · trivial
  · rename_i w _
    have answered : Unmoves ⟨fun _ => False, 0⟩ s ((s.modify w Server.afterAsync).send w ⟨"408 Timeout", [], .nothing⟩) :=
      Unmoved.send_unmoved (Unmoved.changed (Unmoved.refl s) fun _ => rfl)
    have same : ∀ {t : Server} {id : Bytes}, Unmoved ⟨fun _ => False, 0⟩ s t ∧ t.ids = s.ids → t.uses id →
        Explained (.expire i j p now) s id := by
      intro t id after used
      rcases after.1.uses id used with early | chosen | ⟨index, low, high, _⟩
      · exact Or.inr (Or.inl early)
      · exact chosen.elim
      · have still : t.generated = s.generated := congrArg Ids.generated after.2
        omega
    have counted := Server.send_keeps (show (s.modify w Server.afterAsync).ids = s.ids from rfl) w
      ⟨"408 Timeout", [], .nothing⟩
    rw [Explains, Ends_andThen]
    refine Ends.mono (Ends.both answered counted) (fun _ t after id used => ?_) fun _ t after id => same after
    have before : t.uses id := by
      exact Server.uses_of_labels used (labels_modify t w _ fun _ => rfl) (List.Subset.refl _)
    exact same after before

theorem apply_explains {action : Action} {s : Server} (entitled : Entitled action s) :
    Explains action s (action.apply s) := by
  by_cases late : ∃ i j p now, action = .expire i j p now
  · obtain ⟨i, j, p, now, rfl⟩ := late
    exact expire_explains s i j p now
  by_cases new : ∃ loop garbage, action = .accept loop garbage
  · obtain ⟨loop, garbage, rfl⟩ := new
    intro id used
    exact explained_of_change used (fun _ => Function.update_apply ..) rfl fun bears =>
      Or.inl (bears.elim Eq.symm Eq.symm)
  cases parses : action.parses with
  | false =>
      have moves : Unmoves ⟨Chooses (action, s), action.random⟩ s (action.apply s) := by
        refine Unmoved.apply_unmoved s parses (fun loop garbage same => new ⟨loop, garbage, same⟩)
          (fun i j p now same => late ⟨i, j, p, now, same⟩) rfl fun d asks json id scanned => ?_
        cases action with
        | edit => cases parses
        | _ => exact ⟨d, json, asks, scanned⟩
      exact Ends.mono (Ends.both moves (apply_calls action s)) (fun _ t after id => after.1.explained after.2)
        fun _ t after id => after.1.explained after.2
  | true =>
      cases action with
      | receive loop chunk => exact fun id used => Or.inr (Or.inl used)
      | edit c taken change =>
          intro id used
          refine explained_of_change used (fun _ => Server.modify_conns ..) rfl fun bears => ?_
          rcases entitled c taken change rfl id bears with own | chosen
          · exact bears_explained own
          · exact Or.inr (Or.inr (Or.inl chosen))
      | begin c taken line => exact begin_explains s c taken line
      | endHead c taken body =>
          exact fun id used => Or.inr (Or.inl (Server.uses_of_labels used
            (labels_modify (s.note (.taken c taken)) c _ fun _ => rfl) (List.Subset.refl _)))
      | rewind c =>
          have same := labels_modify s c (fun conn => { conn with http := { conn.http with step := .start } })
            fun _ => rfl
          exact fun id used => Or.inr (Or.inl (Server.uses_of_labels used same (List.Subset.refl _)))
      | _ => cases parses

/-! ### Runs -/

theorem Rooted.append {past : List (Action × Server)} {id : Bytes} (rooted : Rooted past id)
    (moment : Action × Server) : Rooted (past ++ [moment]) id := by
  rcases rooted with empty | ⟨earlier, member, source⟩
  · exact Or.inl empty
  · exact Or.inr ⟨earlier, List.mem_append_left _ member, source⟩

/-- At every moment of a run, every id in use comes from an earlier moment. -/
theorem Trail.rooted {moments : List (Action × Server)} {s : Server} (trail : Trail moments s) (input : Input)
    {before after : List (Action × Server)} {moment : Action × Server}
    (split : moments ++ (input.run s).1 = before ++ moment :: after) {id : Bytes} (used : moment.2.uses id) :
    Rooted before id := by
  have held : AllRooted (s, moments) ∧ ∀ input before moment after,
      moments ++ (Input.run input s).1 = before ++ moment :: after → AllRooted (moment.2, before) := by
    refine trail.heeded ?_ routine_entitled ?_
    · intro threads jsonrpc2 version startTime id used
      rcases used with ⟨x, bears⟩ | ⟨d, waits⟩
      · exact Or.inl (bears.elim Eq.symm Eq.symm)
      · cases waits
    · intro action state entitled rooted
      have explained : ∀ (t : Server), (∀ id, t.uses id → Explained action state.1 id) →
          ∀ id, t.uses id → Rooted (state.2 ++ [(action, state.1)]) id := by
        intro t explains id used
        have now : (action, state.1) ∈ state.2 ++ [(action, state.1)] := List.mem_append_right _ (List.mem_singleton.mpr rfl)
        rcases explains id used with empty | early | chosen | made
        · exact Or.inl empty
        · exact (rooted id early).append _
        · exact Or.inr ⟨_, now, Or.inl chosen⟩
        · exact Or.inr ⟨_, now, Or.inr made⟩
      exact recording_ends (Ends.mono (apply_explains entitled) (fun _ t => explained t) fun _ t => explained t)
  exact held.2 input before moment after split id used

end Ijson
