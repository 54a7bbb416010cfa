/-
A request that waits for its answer.

While a connection waits, what it sends is only stored: the gate at the top of
`on_recv` sees to it.  The same read can go on behind the request, though.  The
code behind the end of the headers looks at the status first; the code behind a
body that came in several reads does not.
-/

import Ijson.Rollback

namespace Ijson

open Program

/-- The request has become a task and is not answered yet. -/
def Conn.waits (conn : Conn) : Bool :=
  conn.status = .clientWaitResult || conn.status = .workerWaitJob

/-- The task: all that was read of the request, and the mode flags.  The rest
belongs to the parser. -/
def Conn.task (conn : Conn) : Http × Bool × Bool × Bool :=
  ({ conn.http with step := .start, buffer := Buffer.empty, pingTimeout := 0 },
    conn.workerMode, conn.noid, conn.failOnDisconnect)

/-- The connection has the same task, and the same status. -/
structure Untouched (c : ConnId) (s t : Server) : Prop where
  task : (t.conns c).task = (s.conns c).task
  status : (t.conns c).status = (s.conns c).status

/-- The action neither changes the task of `c` nor completes another request of it. -/
def Leaves (c : ConnId) (moment : Action × Server) : Prop :=
  moment.1 ≠ .complete c ∧ (moment.1.apply moment.2).Ends
    (fun _ t => Untouched c moment.2 t) fun _ t => Untouched c moment.2 t

/-- The data go on with the first line of another request. -/
def BeginsNext (data : Bytes) : Prop :=
  ∃ raw rest, popLine data = some (raw, rest) ∧ rstrip raw ≠ []

/-- What `on_recv` works on when `chunk` has arrived. -/
def Http.unread (http : Http) (chunk : Bytes) : Bytes :=
  if http.buffer.size ≠ 0 then (http.buffer.add chunk).contents else chunk

/-- The chunk is to complete a body that came in several reads, and goes on
behind it with the first line of another request. -/
def Overruns (c : ConnId) (chunk : Bytes) (s : Server) : Prop :=
  let http := (s.conns c).http
  http.step = .readBody ∧
    BeginsNext ((http.unread chunk).drop (http.contentLength - http.body.length).toNat)

/-- `c` still waits when the parser goes back to `HTTP_START` behind a request. -/
def Waited (c : ConnId) (moment : Action × Server) : Prop :=
  moment.1 = .rewind c ∧ (moment.2.conns c).waits = true

/-- Once the request of `c` waits, its task is left alone; `exempt` excuses the
first request. -/
def Peaceful (c : ConnId) (exempt : Prop) (moments : List (Action × Server)) : Prop :=
  ∀ before moment after, moments = before ++ moment :: after → Waited c moment →
    (exempt → ∃ earlier ∈ before, earlier.1 = .rewind c) → ∀ later ∈ moment :: after, Leaves c later

/-- No request of `c` waits yet, but for the first. -/
def Unwaited (c : ConnId) (exempt : Prop) (moments : List (Action × Server)) : Prop :=
  ∀ before moment after, moments = before ++ moment :: after → Waited c moment →
    exempt ∧ ∀ earlier ∈ before, earlier.1 ≠ .rewind c

namespace Untouched

variable {c : ConnId} {s t u : Server}

theorem refl (c : ConnId) (s : Server) : Untouched c s s := ⟨rfl, rfl⟩

theorem trans (first : Untouched c s t) (second : Untouched c t u) : Untouched c s u :=
  ⟨second.task.trans first.task, second.status.trans first.status⟩

theorem waits (untouched : Untouched c s t) : (t.conns c).waits = (s.conns c).waits := by
  unfold Conn.waits
  rw [untouched.status]

theorem parser (change : Http → Http) (conns : t.conns c = { s.conns c with http := change (s.conns c).http })
    (keeps : ∀ http : Http, { change http with step := .start, buffer := Buffer.empty, pingTimeout := 0 } =
      { http with step := .start, buffer := Buffer.empty, pingTimeout := 0 }) : Untouched c s t := by
  constructor
  · rw [conns, Conn.task, Conn.task, keeps]
  · rw [conns]

end Untouched

/-- The actions of the parser that change its own fields only. -/
theorem edit_untouched (change : Http → Http) (c : ConnId) (taken : Bytes) (s : Server)
    (keeps : ∀ http : Http, { change http with step := .start, buffer := Buffer.empty, pingTimeout := 0 } =
      { http with step := .start, buffer := Buffer.empty, pingTimeout := 0 }) :
    ((Action.edit c taken change).apply s).Ends (fun _ t => Untouched c s t) fun _ t => Untouched c s t := by
  refine Untouched.parser change ?_ keeps
  rw [Server.modify_self]
  rfl

theorem edit_leaves {change : Http → Http} (c : ConnId) (taken : Bytes) (s : Server)
    (keeps : ∀ http : Http, { change http with step := .start, buffer := Buffer.empty, pingTimeout := 0 } =
      { http with step := .start, buffer := Buffer.empty, pingTimeout := 0 }) :
    Leaves c (.edit c taken change, s) :=
  ⟨fun same => (by cases same), edit_untouched change c taken s keeps⟩

theorem rewind_leaves (c : ConnId) (s : Server) : Leaves c (.rewind c, s) := by
  refine ⟨fun same => (by cases same), ?_⟩
  refine Untouched.parser (fun http => { http with step := .start }) ?_ fun _ => rfl
  rw [Server.enter_conns, Server.modify_self]

section Moments

variable {c : ConnId} {exempt : Prop} {moments : List (Action × Server)}

theorem unwaited_nil : Unwaited c exempt [] := by
  intro before moment after split
  cases before <;> cases split

theorem Unwaited.concat (unwaited : Unwaited c exempt moments) {moment : Action × Server}
    (fresh : Waited c moment → exempt ∧ ∀ earlier ∈ moments, earlier.1 ≠ .rewind c) :
    Unwaited c exempt (moments ++ [moment]) := by
  intro before other after split waited
  rcases List.eq_nil_or_concat after with rfl | ⟨front, last, rfl⟩
  · obtain ⟨rfl, same⟩ := List.append_inj' split rfl
    cases same
    exact fresh waited
  · have whole : moments ++ [moment] = (before ++ other :: front) ++ [last] := by
      rw [split]
      simp
    obtain ⟨same, _⟩ := List.append_inj' whole rfl
    exact unwaited before other front same waited

theorem unwaited_of_first (first : ∀ moment ∈ moments, moment.1 ≠ .rewind c) : Unwaited c exempt moments := by
  intro before moment after split waited
  exact absurd waited.1 (first moment (split ▸ List.mem_append_right _ List.mem_cons_self))

/-- From some moment on all leave the task alone, and nothing waited before. -/
def Resting (c : ConnId) (exempt : Prop) (moments : List (Action × Server)) : Prop :=
  ∃ past tail, moments = past ++ tail ∧ Unwaited c exempt past ∧ ∀ moment ∈ tail, Leaves c moment

theorem Unwaited.resting (unwaited : Unwaited c exempt moments) : Resting c exempt moments :=
  ⟨moments, [], (List.append_nil _).symm, unwaited, fun _ member => by cases member⟩

theorem Resting.concat (resting : Resting c exempt moments) {moment : Action × Server}
    (leaves : Leaves c moment) : Resting c exempt (moments ++ [moment]) := by
  obtain ⟨past, tail, rfl, unwaited, whole⟩ := resting
  refine ⟨past, tail ++ [moment], List.append_assoc _ _ _, unwaited, fun later member => ?_⟩
  rcases List.mem_append.mp member with old | new
  · exact whole later old
  · rw [List.mem_singleton.mp new]
    exact leaves

theorem Resting.peaceful (resting : Resting c exempt moments) : Peaceful c exempt moments := by
  obtain ⟨past, tail, rfl, unwaited, leaves⟩ := resting
  intro before moment after split waited excused
  rcases List.append_eq_append_iff.mp split with ⟨front, behind, rest⟩ | ⟨front, behind, rest⟩
  · intro later member
    refine leaves later ?_
    rw [rest]
    exact List.mem_append_right _ member
  · cases front with
    | nil =>
        intro later member
        refine leaves later ?_
        rw [List.nil_append] at rest
        rw [← rest]
        exact member
    | cons first front =>
        rw [List.cons_append, List.cons.injEq] at rest
        obtain ⟨rfl, _⟩ := rest
        obtain ⟨holds, nothing⟩ := unwaited before moment front behind waited
        obtain ⟨earlier, member, isRewind⟩ := excused holds
        exact absurd isRewind (nothing earlier member)

theorem Unwaited.ended (unwaited : Unwaited c exempt moments) : Peaceful c exempt moments :=
  unwaited.resting.peaceful

/-- At each moment, all is well up to it. -/
def Spares (c : ConnId) (exempt : Prop) (action : Action) (now : Recorded Server Action) : Prop :=
  Peaceful c exempt (now.2 ++ [(action, now.1)])

end Moments

namespace Routine

variable {env : Env} {c : ConnId} {exempt : Prop} {s : Server}

theorem unwaited_kept (action : Action) (state : Recorded Server Action) (other : action ≠ .rewind c)
    (holds : Unwaited c exempt state.2) : Spares c exempt action state ∧
      (recording Action.apply action state).Ends
        (fun _ now => Unwaited c exempt now.2) fun _ now => Unwaited c exempt now.2 := by
  have more : Unwaited c exempt (state.2 ++ [(action, state.1)]) :=
    holds.concat fun waited => absurd waited.1 other
  refine ⟨more.ended, recording_ends ?_⟩
  cases action.apply state.1 with
  | returned after value => exact more
  | thrown after error => exact more
  | fault => trivial

theorem unwaited_step {action : Action} (other : action ≠ .rewind c) :
    Tries Action.apply (Spares c exempt) (fun now => Unwaited c exempt now.2) (fun now => Unwaited c exempt now.2)
      (fun now => Unwaited c exempt now.2) (perform action : Routine Unit) :=
  leads_perform fun state holds => unwaited_kept action state other holds

/-- The parser goes on to the next request when the one before is answered. -/
theorem unwaited_rewind (net : (s.conns c).status = .net) :
    Tries Action.apply (Spares c exempt) (fun now => Unwaited c exempt now.2 ∧ now.1 = s)
      (fun now => Unwaited c exempt now.2) (fun now => Unwaited c exempt now.2)
      (perform (.rewind c) : Routine Unit) := by
  refine leads_perform fun state holds => ?_
  have more : Unwaited c exempt (state.2 ++ [(.rewind c, state.1)]) := holds.1.concat fun waited => by
    have waits := waited.2
    rw [holds.2, Conn.waits, net] at waits
    cases waits
  exact ⟨more.ended, recording_ends more⟩

theorem resting_step {action : Action} (leaves : ∀ t, Leaves c (action, t)) :
    Tries Action.apply (Spares c exempt) (fun now => Resting c exempt now.2) (fun now => Resting c exempt now.2)
      (fun now => Resting c exempt now.2) (perform action : Routine Unit) := by
  refine leads_perform fun state holds => ?_
  have resting := holds.concat (leaves state.1)
  refine ⟨resting.peaceful, recording_ends ?_⟩
  cases action.apply state.1 with
  | returned after value => exact resting
  | thrown after error => exact resting
  | fault => trivial

/-- `header_completed` is not part of the parser. -/
theorem answering_keeps {fact : Recorded Server Action → Prop}
    (kept : ∀ action state, action ≠ .rewind c → fact state → Spares c exempt action state ∧
      (recording Action.apply action state).Ends (fun _ => fact) fun _ => fact) :
    Stays Action.apply (Spares c exempt) fact (answering (headerCompleted env c) c) := by
  have free : Frees fun action (_ : Server) => action ≠ .rewind c := by
    constructor
    · intro action serves _ same
      rw [same] at serves
      cases serves
    · intro _ _ _ _ _ _ same
      cases same
  have registered : ∀ i, Heeds (fun action _ => action ≠ .rewind c) (registerIn c i) :=
    anyRegister_heeds (free.attends c) fun i _ same => by cases same
  exact Heeds.stays (answering_heeds (free.attends c) (headerCompleted_heeds (free.attends c) registered)) kept

theorem keepRest_resting (cursor : Cursor) :
    Tries Action.apply (Spares c exempt) (fun now => Resting c exempt now.2) (fun now => Resting c exempt now.2)
      (fun now => Resting c exempt now.2) (keepRest c cursor) := by
  refine leads_look fun s => ?_
  cases cursor.place with
  | array => exact resting_step fun t => edit_leaves c [] t fun _ => rfl
  | block number =>
      cases (s.conns c).http.buffer.addOwn cursor.data with
      | none => exact leads_fault
      | some buffer => exact resting_step fun t => edit_leaves c [] t fun _ => rfl

/-- The loop over the lines leaves a waiting task alone: it only goes on behind
a request that is answered. -/
theorem readLines_peaceful (fuel : Nat) (cursor : Cursor) :
    Tries Action.apply (Spares c exempt) (fun now => Unwaited c exempt now.2) (fun now => Peaceful c exempt now.2)
      (fun now => Peaceful c exempt now.2) (readLines env (headerCompleted env c) c fuel cursor) := by
  have stop : ∀ error : Exc, Tries Action.apply (Spares c exempt) (fun now => Unwaited c exempt now.2)
      (fun now => Unwaited c exempt now.2) (fun now => Peaceful c exempt now.2)
      (throw error : Routine Unit) := fun error state holds => holds.ended
  have onward : ∀ {action : Action} {rest : Unit → Routine Unit}, action ≠ .rewind c →
      (∀ u, Tries Action.apply (Spares c exempt) (fun now => Unwaited c exempt now.2)
        (fun now => Peaceful c exempt now.2) (fun now => Peaceful c exempt now.2) (rest u)) →
      Tries Action.apply (Spares c exempt) (fun now => Unwaited c exempt now.2)
        (fun now => Peaceful c exempt now.2) (fun now => Peaceful c exempt now.2) (perform action >>= rest) :=
    fun other later => Leads.bind (unwaited_step other) later fun _ holds => holds.ended
  induction fuel generalizing cursor with
  | zero => exact leads_fault
  | succ fuel ih =>
      rw [readLines]
      cases popLine cursor.data with
      | none =>
          refine leads_look fun s => ?_
          split
          · exact Leads.mono (keepRest_resting cursor) (fun _ holds => holds.resting)
              fun _ holds => holds.peaceful
          · exact leads_pure _ fun _ holds => holds.ended
      | some popped =>
          obtain ⟨raw, left⟩ := popped
          simp -zeta only
          extract_lets line after
          refine leads_look fun s => ?_
          extract_lets http length behind body checked
          have taken : ∀ u, Tries Action.apply (Spares c exempt) (fun now => Unwaited c exempt now.2)
              (fun now => Peaceful c exempt now.2) (fun now => Peaceful c exempt now.2) (body u) := by
            intro u
            refine onward (fun same => by cases same) fun _ => leads_look fun t => ?_
            split
            · refine Leads.bind (answering_keeps unwaited_kept) (fun _ => ?_) fun _ holds => holds.ended
              split
              · refine leads_get fun t => ?_
                split
                · rename_i net
                  exact Leads.bind (unwaited_rewind net) (fun _ => ih _) fun _ holds => holds.ended
                · exact fun state holds => holds.1.ended
              · exact Leads.mono (resting_step fun t => rewind_leaves c t) (fun _ holds => holds.resting)
                  fun _ holds => holds.peaceful
            · exact leads_pure _ fun _ holds => holds.ended
          have checkedOk : ∀ u, Tries Action.apply (Spares c exempt) (fun now => Unwaited c exempt now.2)
              (fun now => Peaceful c exempt now.2) (fun now => Peaceful c exempt now.2) (checked u) := by
            intro u
            unfold checked
            split
            · exact leads_fault
            · exact taken ()
          split
          · split
            · exact Tries.bind (stop _) checkedOk
            · exact checkedOk ()
          · split
            · refine onward (fun same => by cases same) fun _ => leads_look fun t => ?_
              extract_lets
              split
              · exact leads_pure _ fun _ holds => holds.ended
              · exact ih _
            · split
              · split
                · exact onward (fun same => by cases same) fun _ => ih _
                · refine onward (fun same => by cases same) fun _ => ?_
                  extract_lets
                  split
                  · exact onward (fun same => by cases same) fun _ => ih _
                  · exact Tries.bind (stop _) fun _ => ih _
              · exact onward (fun same => by cases same) fun _ => ih _

/-- No request has been served yet. -/
def Unserved (c : ConnId) (now : Recorded Server Action) : Prop :=
  ∀ moment ∈ now.2, moment.1 ≠ .rewind c

theorem Unserved.ended {now : Recorded Server Action} (unserved : Unserved c now) : Peaceful c exempt now.2 :=
  (unwaited_of_first unserved).ended

theorem Unserved.after {now : Recorded Server Action} (unserved : Unserved c now) {action : Action}
    (other : action ≠ .rewind c) (t : Server) : Unserved c (t, now.2 ++ [(action, now.1)]) := by
  intro moment member
  rcases List.mem_append.mp member with old | new
  · exact unserved moment old
  · rw [List.mem_singleton.mp new]
    exact other

theorem unserved_kept (action : Action) (state : Recorded Server Action) (other : action ≠ .rewind c)
    (unserved : Unserved c state) : Spares c exempt action state ∧
      (recording Action.apply action state).Ends (fun _ now => Unserved c now) fun _ now => Unserved c now := by
  refine ⟨(unserved.after other state.1).ended, recording_ends ?_⟩
  cases action.apply state.1 with
  | returned after value => exact unserved.after other after
  | thrown after error => exact unserved.after other after
  | fault => trivial

theorem unserved_edit (taken : Bytes) (change : Http → Http) :
    Tries Action.apply (Spares c exempt) (Unserved c) (Unserved c) (Unserved c)
      (perform (.edit c taken change) : Routine Unit) :=
  leads_perform fun now unserved => unserved_kept _ now (fun same => by cases same) unserved

/-- When no other request follows, what is left is stored, or the empty line is
refused. -/
theorem lastLines_peaceful {fuel : Nat} {cursor : Cursor} (ends : ¬ BeginsNext cursor.data) :
    Tries Action.apply (Spares c exempt)
      (fun now => Resting c exempt now.2 ∧ (now.1.conns c).http.step = .start)
      (fun now => Peaceful c exempt now.2) (fun now => Peaceful c exempt now.2)
      (readLines env (headerCompleted env c) c fuel cursor) := by
  cases fuel with
  | zero => exact leads_fault
  | succ fuel =>
      rw [readLines]
      cases popped : popLine cursor.data with
      | none =>
          refine leads_look fun s => ?_
          split
          · exact Leads.mono (keepRest_resting cursor) (fun _ holds => holds.1)
              fun _ holds => holds.peaceful
          · exact leads_pure _ fun _ holds => holds.1.peaceful
      | some pair =>
          obtain ⟨raw, rest⟩ := pair
          have blank : rstrip raw = [] := by
            by_contra other
            exact ends ⟨raw, rest, popped, other⟩
          intro state holds
          have other : ((state.1).conns c).http.step ≠ .header := by
            rw [holds.2]
            exact fun same => by cases same
          simp -zeta only
          extract_lets line after
          rw [wp_recorded_get]
          extract_lets http length behind body checked
          have empty : line.isEmpty = true := by rw [show line = [] from blank, List.isEmpty_nil]
          rw [if_pos empty, if_pos other]
          exact holds.1.peaceful

/-- What is known behind the body: either a request may follow, or none does. -/
def Behind (c : ConnId) (exempt : Prop) (rest : Bytes) (now : Recorded Server Action) : Prop :=
  Unwaited c exempt now.2 ∨
    (Resting c exempt now.2 ∧ (now.1.conns c).http.step = .start) ∧ ¬ BeginsNext rest

theorem rewind_behind (rest : Bytes) (excuse : BeginsNext rest → exempt) :
    Tries Action.apply (Spares c exempt) (Unserved c) (Behind c exempt rest)
      (Behind c exempt rest) (perform (.rewind c) : Routine Unit) := by
  refine leads_perform fun state first => ?_
  have step : ((((state.1.modify c fun conn => { conn with http := { conn.http with step := .start } }).enter
      .idle)).conns c).http.step = .start := by
    rw [Server.enter_conns, Server.modify_self]
  by_cases begins : BeginsNext rest
  · have more : Unwaited c exempt (state.2 ++ [(.rewind c, state.1)]) :=
      (unwaited_of_first first).concat fun _ => ⟨excuse begins, first⟩
    exact ⟨more.ended, .inl more⟩
  · have more : Resting c exempt (state.2 ++ [(.rewind c, state.1)]) :=
      (unwaited_of_first first).resting.concat (rewind_leaves c state.1)
    exact ⟨more.peaceful, .inr ⟨⟨more, step⟩, begins⟩⟩

theorem behind_peaceful {fuel : Nat} {cursor : Cursor} {rest : Bytes} (follows : cursor.data = rest) :
    Tries Action.apply (Spares c exempt) (Behind c exempt rest) (fun now => Peaceful c exempt now.2)
      (fun now => Peaceful c exempt now.2) (readLines env (headerCompleted env c) c fuel cursor) := by
  intro state behind
  cases behind with
  | inl unwaited => exact readLines_peaceful fuel cursor state unwaited
  | inr resting => exact lastLines_peaceful (follows ▸ resting.2) state resting.1

theorem Behind.peaceful {rest : Bytes} {now : Recorded Server Action} (behind : Behind c exempt rest now) :
    Peaceful c exempt now.2 := by
  cases behind with
  | inl unwaited => exact unwaited.ended
  | inr resting => exact resting.1.1.peaceful

/-- Behind a body that came in several reads nothing is looked at, so that it
matters what follows. -/
theorem parse_peaceful (cursor : Cursor)
    (excuse : (s.conns c).http.step = .readBody → BeginsNext (cursor.data.drop
      ((s.conns c).http.contentLength - (s.conns c).http.body.length).toNat) → exempt) :
    Tries Action.apply (Spares c exempt) (fun now => Unserved c now ∧ now.1 = s)
      (fun now => Peaceful c exempt now.2) (fun now => Peaceful c exempt now.2)
      (parse env (headerCompleted env c) c cursor) := by
  rintro state ⟨unserved, same⟩
  rw [parse, wp_recorded_get, same]
  extract_lets http missing count left body
  have read : http.step = .readBody → ∀ u, (body u).recorded.wp (recording Action.apply) (Spares c exempt)
      (fun _ now => Peaceful c exempt now.2) (fun _ now => Peaceful c exempt now.2) state := by
    intro reading u
    unfold body
    split
    · exact Leads.mono (unserved_edit _ _) (fun _ holds => holds) (fun _ holds => holds.ended) state unserved
    · refine Leads.bind (unserved_edit _ _) (fun _ => ?_) (fun _ holds => holds.ended) state unserved
      refine Leads.bind (answering_keeps unserved_kept) (fun _ => ?_) fun _ holds => holds.ended
      refine Leads.bind (rewind_behind (cursor.data.drop count) (excuse reading)) (fun _ => ?_)
        fun _ behind => behind.peaceful
      split
      · exact behind_peaceful rfl
      · exact leads_pure _ fun _ behind => behind.peaceful
  split
  · rename_i reading
    split
    · exact trivial
    · exact read reading ()
  · exact readLines_peaceful _ cursor state (unwaited_of_first unserved)

theorem storeOrParse_peaceful {chunk : Bytes} (excuse : Overruns c chunk s → exempt) :
    Tries Action.apply (Spares c exempt) (fun now => Unserved c now ∧ now.1 = s)
      (fun now => Peaceful c exempt now.2) (fun now => Peaceful c exempt now.2)
      (storeOrParse env (headerCompleted env c) c chunk) := by
  rintro state ⟨unserved, same⟩
  rw [storeOrParse, wp_recorded_get, same]
  extract_lets conn
  split
  · exact Leads.mono (unserved_edit _ _) (fun _ holds => holds) (fun _ holds => holds.ended) state unserved
  · split
    · rename_i stored
      have other : Action.edit c [] (fun http => { http with buffer := http.buffer.add chunk }) ≠ .rewind c :=
        fun same => by cases same
      rw [wp_recorded_perform]
      refine ⟨(unserved.after other state.1).ended, recording_ends ?_⟩
      have after := unserved.after other
      simp only [Action.apply, Ends_returned, wp_recorded_get, same] at after ⊢
      refine parse_peaceful _ (fun reading begins => excuse ⟨?_, ?_⟩) _ ⟨after _, rfl⟩
      · rw [Server.modify_self] at reading
        exact reading
      · rw [Server.modify_self] at begins
        rw [Http.unread, if_pos stored]
        exact begins
    · rename_i empty
      refine parse_peaceful _ (fun reading begins => excuse ⟨reading, ?_⟩) state ⟨unserved, same⟩
      rw [Http.unread, if_neg empty]
      exact begins

theorem onRecv_peaceful (env : Env) (c : ConnId) (chunk : Bytes) (s : Server) :
    Peaceful c (Overruns c chunk s) ((onRecv env c chunk).run Action.apply s).1 := by
  have walked : (onRecv env c chunk).recorded.wp (recording Action.apply) (Spares c (Overruns c chunk s))
      (fun _ now => Peaceful c (Overruns c chunk s) now.2)
      (fun _ now => Peaceful c (Overruns c chunk s) now.2) (s, []) := by
    have unserved : Unserved c (s, []) := fun moment member => by cases member
    rw [onRecv, onRecvWith, wp_recorded_get]
    extract_lets ping store
    split
    · rw [wp_recorded_perform]
      refine ⟨(unserved.after (fun same => by cases same) s).ended, recording_ends ?_⟩
      refine storeOrParse_peaceful (s := (s.note (.taken c [])).modify c fun conn => { conn with
        http := { conn.http with pingTimeout := u32 (env.now s.tick + ping) } }) ?_ _
        ⟨unserved.after (fun same => by cases same) _, rfl⟩
      rw [Overruns, Server.modify_self]
      exact fun overruns => overruns
    · exact storeOrParse_peaceful (fun overruns => overruns) _ ⟨unserved, rfl⟩
  rcases List.eq_nil_or_concat ((onRecv env c chunk).run Action.apply s).1 with none | ⟨front, last, split⟩
  · rw [none]
    exact unwaited_nil.ended
  · rw [List.concat_eq_append] at split
    rw [split]
    exact moment_recorded walked split

/-! ### The gate -/

theorem onRecv_stores {chunk : Bytes} (waits : (s.conns c).waits = true) :
    (onRecv env c chunk).wp Action.apply (fun action t => Leaves c (action, t))
      (fun _ t => Untouched c s t ∧ (t.conns c).closed = (s.conns c).closed) (fun _ _ => False) s := by
  have store : ∀ t : Server, Untouched c s t → (t.conns c).closed = (s.conns c).closed →
      (storeOrParse env (headerCompleted env c) c chunk).wp Action.apply
        (fun action t => Leaves c (action, t))
        (fun _ t => Untouched c s t ∧ (t.conns c).closed = (s.conns c).closed) (fun _ _ => False) t := by
    intro t untouched closed
    have unready : (t.conns c).ready = false := by
      have still := untouched.waits.trans waits
      unfold Conn.waits at still
      unfold Conn.ready
      cases status : (t.conns c).status <;> rw [status] at still <;> first | rfl | cases still
    rw [storeOrParse, wp_bind, wp_get]
    extract_lets conn
    rw [if_pos (by rw [show conn.ready = false from unready]; rfl), wp_perform]
    have edited := edit_untouched (fun http => { http with buffer := http.buffer.add chunk }) c [] t
      fun _ => rfl
    refine ⟨edit_leaves c [] t fun _ => rfl, untouched.trans edited, ?_⟩
    rw [Server.modify_self]
    exact closed
  rw [onRecv, onRecvWith, wp_bind, wp_get]
  extract_lets ping later
  split
  · have edited := edit_untouched (fun http => { http with
      pingTimeout := u32 (env.now s.tick + ping) }) c [] s fun _ => rfl
    rw [wp_bind, wp_perform]
    refine ⟨edit_leaves c [] s fun _ => rfl, ?_⟩
    refine store _ edited ?_
    rw [Server.modify_self]
    rfl
  · exact store s (.refl c s) rfl

theorem recv_untouched {chunk : Bytes} (waits : (s.conns c).waits = true)
    (enabled : (Input.recv c chunk env).Enabled s) :
    ((Input.recv c chunk env).run s).2.Ends (fun _ t => Untouched c s t) fun _ _ => False := by
  have isOpen : (s.conns c).closed = false := enabled.1.2.2.1
  have served : ∀ t : Server, t.conns = s.conns → (guarded (onRecv env c chunk) c).wp Action.apply
      (fun _ _ => True) (fun _ u => Untouched c s u) (fun _ _ => False) t := by
    intro t conns
    rw [guarded, wp_bind, wp_catching]
    have stores : (onRecv env c chunk).wp Action.apply (fun action t => Leaves c (action, t))
        (fun _ u => Untouched c t u ∧ (u.conns c).closed = (t.conns c).closed) (fun _ _ => False) t :=
      onRecv_stores (by rw [conns, waits])
    refine wp_mono (wp_weaken stores fun _ _ _ => trivial) (fun _ u stored => ?_) fun _ _ nothing => nothing.elim
    rw [wp_bind, wp_get, stored.2, conns, isOpen, if_neg Bool.false_ne_true]
    exact ⟨conns ▸ stored.1.task, conns ▸ stored.1.status⟩
  have whole : ((Input.recv c chunk env).routine s).wp Action.apply (fun _ _ => True)
      (fun _ u => Untouched c s u) (fun _ _ => False) s := by
    rw [Input.routine, Input.inLoop, wp_catching, wp_bind, wp_perform]
    refine ⟨trivial, ?_⟩
    simp only [Action.apply, Ends_returned]
    rw [wp_bind, wp_perform]
    refine ⟨trivial, ?_⟩
    simp only [Action.apply, Ends_returned]
    exact wp_mono (served _ rfl) (fun _ _ untouched => untouched) fun _ _ nothing => nothing.elim
  exact outcome_ends whole

/-- Reads one after another while the task waits. -/
theorem reads_untouched {reads : List (Bytes × Env)} {t : Server} (waits : (s.conns c).waits = true)
    (afterEq : afterAll (reads.map fun read => .recv c read.1 read.2) s = some t) : Untouched c s t := by
  induction reads generalizing s with
  | nil =>
      cases afterEq
      exact .refl c _
  | cons read reads ih =>
      rw [List.map_cons, afterAll] at afterEq
      split at afterEq
      · rename_i enabled
        have ends := recv_untouched waits enabled
        split at afterEq
        · rename_i middle _ returned
          rw [returned] at ends
          exact ends.trans (ih (ends.waits.trans waits) afterEq)
        · cases afterEq
      · cases afterEq

/-- A waiting task is left alone by every read that comes while it waits, and
by what follows it in the same read; unless its body came in several reads and
another request follows the body. -/
theorem waiting_task_kept (env : Env) (c : ConnId) (chunk : Bytes) (s : Server) :
    Peaceful c (Overruns c chunk s) ((onRecv env c chunk).run Action.apply s).1 ∧
      ((s.conns c).waits = true →
        (∀ moment ∈ ((onRecv env c chunk).run Action.apply s).1, Leaves c moment) ∧
        ∀ (reads : List (Bytes × Env)) (t : Server),
          afterAll (reads.map fun read => .recv c read.1 read.2) s = some t → Untouched c s t) := by
  refine ⟨onRecv_peaceful env c chunk s, fun waits => ⟨fun moment member => ?_, fun reads t afterEq => ?_⟩⟩
  · exact moment_meets (onRecv_stores waits) member
  · exact reads_untouched waits afterEq

/-- A worker waits for a task. -/
def idleWorker : List Input :=
  [.accept 0 ⟨false, false, false⟩, .recv 0 (ascii "GET /a HTTP/1.1\r\nType: get\r\n\r\n") atRest]

/-- Its next request. -/
def nextRead : Bytes × Env := (ascii "GET /b HTTP/1.1\r\n\r\n", atRest)

/-- The sizes of its buffer before the read and behind it, if it waits. -/
def storedSizes (s : Server) : Option (Nat × Nat) :=
  match afterAll ([nextRead].map fun read => .recv 0 read.1 read.2) s with
  | some t =>
      if (s.conns 0).waits then some ((s.conns 0).http.buffer.size, (t.conns 0).http.buffer.size) else none
  | none => none

theorem waiting_task_kept_idle : ∃ s t : Server, (s.conns 0).waits = true ∧
    (s.conns 0).http.buffer.size = 0 ∧ (t.conns 0).http.buffer.size = 19 ∧ Untouched 0 s t := by
  have ran : (afterAll idleWorker (Server.new 1 false [] 0)).map storedSizes = some (some (0, 19)) := by
    decide +kernel
  obtain ⟨s, _, test⟩ := Option.map_eq_some_iff.mp ran
  unfold storedSizes at test
  split at test
  · rename_i t afterEq
    split at test
    · rename_i waits
      have sizes := Option.some.inj test
      rw [Prod.mk.injEq] at sizes
      exact ⟨s, t, waits, sizes.1, sizes.2, ((waiting_task_kept atRest 0 [] s).2 waits).2 _ t afterEq⟩
    · cases test
  · cases test

/-- The action changes the body of the task. -/
def disturbs (c : ConnId) (moment : Action × Server) : Bool :=
  match moment.1.apply moment.2 with
  | .returned t _ => (t.conns c).http.body ≠ (moment.2.conns c).http.body
  | _ => false

/-- It does so after the task has begun to wait. -/
def disturbedBehind (c : ConnId) (moments : List (Action × Server)) : Bool :=
  moments.tails.any fun
    | (.rewind d, t) :: after => d = c && (t.conns c).waits && after.any (disturbs c)
    | _ => false

def isEdit : Action → Bool
  | .edit _ _ _ => true
  | _ => false

theorem not_peaceful {moments : List (Action × Server)} (disturbed : disturbedBehind c moments = true) :
    ¬ Peaceful c False moments := by
  intro peaceful
  obtain ⟨tail, suffixed, test⟩ := List.any_eq_true.mp disturbed
  obtain ⟨before, split⟩ := (List.mem_tails _ _).mp suffixed
  split at test
  · rename_i d t after
    rw [Bool.and_eq_true, Bool.and_eq_true, decide_eq_true_eq] at test
    obtain ⟨⟨rfl, waits⟩, rest⟩ := test
    obtain ⟨moment, member, changes⟩ := List.any_eq_true.mp rest
    have leaves := peaceful before _ after split.symm ⟨rfl, waits⟩ False.elim moment
      (List.mem_cons_of_mem _ member)
    have ends := leaves.2
    unfold disturbs at changes
    split at changes
    · rename_i u _ applied
      rw [applied] at ends
      have same : (u.conns d).http.body = (moment.2.conns d).http.body :=
        congrArg (fun task : Http × Bool × Bool × Bool => task.1.body) ends.task
      exact absurd same (of_decide_eq_true changes)
    · cases changes
  · cases test

/-- The rest of a body comes together with the next request, and the task loses
the body. -/
theorem task_disturbed : ¬ ∀ env c chunk s, Met anything s →
    Peaceful c False ((onRecv env c chunk).run Action.apply s).1 := by
  intro always
  have ran : (afterAll halfBody (Server.new 1 false [] 0)).map (fun s =>
      decide (pipelined.Enabled s) && (pipelined.run s).1.any fun moment =>
        isEdit moment.1 && disturbedBehind 2 ((onRecv atRest 2
          (ascii "bGET /a HTTP/1.1\r\nId: 7\r\n\r\n")).run Action.apply moment.2).1) = some true := by
    decide +kernel
  obtain ⟨s, afterEq, test⟩ := Option.map_eq_some_iff.mp ran
  rw [Bool.and_eq_true, decide_eq_true_eq] at test
  obtain ⟨moment, inside, found⟩ := List.any_eq_true.mp test.2
  obtain ⟨before, after, split⟩ := List.append_of_mem inside
  have met : Met anything moment.2 :=
    .during pipelined before after moment (reachable_afterAll (.new 1 false [] 0) afterEq) test.1 split
      fun _ _ => trivial
  exact not_peaceful (Bool.and_eq_true_iff.mp found).2 (always atRest 2 _ moment.2 met)

end Routine

end Ijson
