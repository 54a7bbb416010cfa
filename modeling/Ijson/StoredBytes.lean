/-
What `on_recv` leaves in the buffer of a connection.

A read that reaches the parser stores the beginning of a line at most, behind
lines that were taken.  Only the gate of `on_recv` stores whole requests, and
nobody comes back for them when the answer has made the connection ready.
-/

import Ijson.Registrations
import Ijson.RequestStream

namespace Ijson

open Program

/-! ### Requests in a buffer -/

/-- A line that does not end the head. -/
def Spoken (line : Bytes) : Prop := newline ∉ line ∧ lineText line ≠ []

/-- The content length behind header lines. -/
def lengthAfter (length : Int) (lines : List Bytes) : Int :=
  lines.foldl (fun length line =>
    match Http.Header.read (lineText line) with
    | .ok (.contentLength value) => i32 value
    | _ => length) length

/-- The data go on to the blank line, and behind it the whole body is there. -/
def EndsRequest (length : Int) (data : Bytes) : Prop :=
  ∃ lines blankLine rest, data = unlines lines ++ blankLine ++ newline :: rest ∧
    (∀ line ∈ lines, Spoken line) ∧ newline ∉ blankLine ∧ lineText blankLine = [] ∧
    lengthAfter length lines ≤ rest.length

/-- With what is in the buffer a request is complete. -/
def Http.Holds (http : Http) : Prop :=
  match http.step with
  | .header => EndsRequest http.contentLength http.buffer.contents
  | .readBody =>
      http.buffer.contents ≠ [] ∧ http.contentLength ≤ http.body.length + http.buffer.contents.length
  | _ => ∃ line rest, http.buffer.contents = line ++ newline :: rest ∧ Spoken line ∧ EndsRequest 0 rest

/-- There is no blank line among the complete ones. -/
def Unended (data : Bytes) : Prop :=
  ∀ lines tail, data = unlines lines ++ tail → (∀ line ∈ lines, newline ∉ line) →
    ∀ line ∈ lines, lineText line ≠ []

theorem unended_of_spoken {lines : List Bytes} {tail : Bytes} (spoken : ∀ line ∈ lines, Spoken line)
    (unfinished : newline ∉ tail) : Unended (unlines lines ++ tail) := by
  induction lines with
  | nil =>
      intro others rest split plain line member
      cases others with
      | nil => cases member
      | cons first others =>
          have inside : newline ∈ unlines [] ++ tail := by
            rw [split]
            simp [unlines]
          exact absurd inside unfinished
  | cons own lines ih =>
      intro others rest split plain line member
      cases others with
      | nil => cases member
      | cons first others =>
          have whole : own ++ newline :: (unlines lines ++ tail) =
              first ++ newline :: (unlines others ++ rest) := by
            simpa [unlines] using split
          obtain ⟨same, later⟩ := first_line_unique (spoken own List.mem_cons_self).1
            (plain first List.mem_cons_self) whole
          cases List.mem_cons.mp member with
          | inl here =>
              rw [here, ← same]
              exact (spoken own List.mem_cons_self).2
          | inr further =>
              exact ih (fun line member => spoken line (List.mem_cons_of_mem own member)) others rest later
                (fun line member => plain line (List.mem_cons_of_mem first member)) line further

theorem unended_tail {tail : Bytes} (unfinished : newline ∉ tail) : Unended tail := by
  have spoken : ∀ line ∈ ([] : List Bytes), Spoken line := fun _ member => by cases member
  exact unended_of_spoken spoken unfinished

theorem Unended.not_ends {length : Int} {data : Bytes} (unended : Unended data) :
    ¬ EndsRequest length data := by
  rintro ⟨lines, blankLine, rest, split, spoken, plain, blank, -⟩
  refine unended (lines ++ [blankLine]) rest ?_ (fun line member => ?_) blankLine (by simp) blank
  · rw [split]
    simp [unlines]
  · cases List.mem_append.mp member with
    | inl earlier => exact (spoken line earlier).1
    | inr last => exact List.mem_singleton.mp last ▸ plain

/-- Behind the first line there is no blank line either. -/
theorem Unended.behind {line rest : Bytes} (unended : Unended (line ++ newline :: rest))
    (plain : newline ∉ line) : Unended rest := by
  intro lines tail split allPlain other member
  refine unended (line :: lines) tail ?_ (fun one inside => ?_) other (List.mem_cons_of_mem line member)
  · rw [split]
    simp [unlines]
  · cases List.mem_cons.mp inside with
    | inl here => exact here ▸ plain
    | inr later => exact allPlain one later

/-- What may be in the buffer between two reads. -/
structure Http.Unheld (http : Http) : Prop where
  fits : http.buffer.Fits
  unserved : http.step ≠ .requestCompleted
  body : http.step = .readBody → http.buffer.contents = []
  holds : ¬ http.Holds

namespace Http.Unheld

theorem of_unended {http : Http} (fits : http.buffer.Fits) (unserved : http.step ≠ .requestCompleted)
    (body : http.step = .readBody → http.buffer.contents = []) (unended : Unended http.buffer.contents) :
    http.Unheld := by
  refine ⟨fits, unserved, body, fun holds => ?_⟩
  unfold Http.Holds at holds
  split at holds
  · exact unended.not_ends holds
  · rename_i step
    exact holds.1 (body step)
  · obtain ⟨line, rest, split, spoken, ends⟩ := holds
    rw [split] at unended
    exact (unended.behind spoken.1).not_ends ends

theorem of_empty {http : Http} (fits : http.buffer.Fits) (unserved : http.step ≠ .requestCompleted)
    (empty : http.buffer.contents = []) : http.Unheld :=
  of_unended fits unserved (fun _ => empty) (empty ▸ unended_tail (by simp))

theorem congr {left right : Http} (unheld : left.Unheld) (same : right.intake = left.intake) : right.Unheld := by
  have step : right.step = left.step := congrArg Intake.step same
  have length : right.contentLength = left.contentLength := congrArg Intake.contentLength same
  have buffer : right.buffer = left.buffer := congrArg Intake.buffer same
  refine ⟨buffer ▸ unheld.fits, step ▸ unheld.unserved, fun reading => ?_, fun holds => unheld.holds ?_⟩
  · rw [buffer]
    exact unheld.body (step ▸ reading)
  · unfold Http.Holds at holds ⊢
    rw [step, length, buffer] at holds
    split at holds
    · exact holds
    · rename_i reading
      exact absurd (unheld.body reading) holds.1
    · exact holds

end Http.Unheld

/-! ### The parser -/

/-- The lines before the cursor are taken.  The buffer holds them still when the
cursor stands in it. -/
structure Reading (c : ConnId) (cursor : Cursor) (s : Server) : Prop where
  fits : (s.conns c).http.buffer.Fits
  step : (s.conns c).http.step = .start ∨ (s.conns c).http.step = .header
  stored : (s.conns c).http.buffer.contents = [] ∨
    ∃ lines, (s.conns c).http.buffer.contents = unlines lines ++ cursor.data ∧ ∀ line ∈ lines, Spoken line

/-- `c` is closed, or nothing is left over. -/
def Drained (c : ConnId) (s : Server) : Prop := (s.conns c).closed = true ∨ (s.conns c).http.Unheld

variable {env : Env} {c : ConnId} {s : Server} {cursor : Cursor}

theorem Reading.waits (reading : Reading c cursor s) :
    (s.conns c).http.step ≠ .readBody ∧ (s.conns c).http.step ≠ .requestCompleted := by
  cases reading.step with
  | inl start =>
      rw [start]
      decide
  | inr header =>
      rw [header]
      decide

theorem Reading.ends_unended (reading : Reading c cursor s) (unfinished : newline ∉ cursor.data) :
    Unended ((s.conns c).http.buffer.contents ++ cursor.data) := by
  cases reading.stored with
  | inl empty =>
      rw [empty]
      exact unended_tail unfinished
  | inr found =>
      obtain ⟨lines, split, spoken⟩ := found
      rw [split, List.append_assoc]
      refine unended_of_spoken spoken fun member => ?_
      cases List.mem_append.mp member with
      | inl once => exact unfinished once
      | inr twice => exact unfinished twice

theorem Reading.taken (reading : Reading c cursor s) {line rest : Bytes} (data : cursor.data = line ++ newline :: rest)
    (spoken : Spoken line) {t : Server} (buffer : (t.conns c).http.buffer = (s.conns c).http.buffer)
    (step : (t.conns c).http.step = .start ∨ (t.conns c).http.step = .header) (place : Place) (start : Nat) :
    Reading c { place := place, start := start, data := rest } t := by
  constructor
  · rw [buffer]
    exact reading.fits
  · exact step
  · rw [buffer]
    cases reading.stored with
    | inl empty => exact .inl empty
    | inr found =>
        obtain ⟨lines, split, said⟩ := found
        refine .inr ⟨lines ++ [line], ?_, fun one member => ?_⟩
        · rw [split, data]
          simp [unlines]
        · cases List.mem_append.mp member with
          | inl earlier => exact said one earlier
          | inr last => exact List.mem_singleton.mp last ▸ spoken

theorem reading_rewound (fits : (s.conns c).http.buffer.Fits) (empty : (s.conns c).http.buffer.contents = []) :
    Reading c cursor ((s.modify c fun conn =>
      { conn with http := { conn.http with step := .start } }).enter .idle) := by
  constructor
  · rw [Server.enter_conns, Server.modify_self]
    exact fits
  · rw [Server.enter_conns, Server.modify_self]
    exact .inl rfl
  · rw [Server.enter_conns, Server.modify_self]
    exact .inl empty

namespace Routine

/-- A return of the routine leaves nothing over. -/
abbrev Drains (c : ConnId) (routine : Routine Unit) (s : Server) : Prop :=
  routine.wp Action.apply (fun _ _ => True) (fun _ t => Drained c t) (fun _ _ => True) s

theorem look_drains {rest : Server → Routine Unit} (later : Drains c (rest s) s) : Drains c (get >>= rest) s := later

theorem step_drains {action : Action} {rest : Unit → Routine Unit}
    (later : (action.apply s).Ends (fun _ t => Drains c (rest ()) t) fun _ _ => True) :
    Drains c (perform action >>= rest) s :=
  wp_perform_bind trivial later

theorem edit_drains {taken : Bytes} {change : Http → Http} (unheld : (change (s.conns c).http).Unheld) :
    Drains c (perform (.edit c taken change)) s := by
  refine ⟨trivial, .inr ?_⟩
  rw [Server.modify_self]
  exact unheld

/-- The answer to a request leaves its input alone. -/
theorem answering_drains {rest : Unit → Routine Unit}
    (later : ∀ t, Unfed s t → Drains c (rest ()) t) :
    Drains c (answering (headerCompleted env c) c >>= rest) s := by
  rw [Drains, wp_bind]
  have heeds : Heeds ReadsNothing (answering (headerCompleted env c) c) :=
    answering_heeds (readsNothing_frees.attends c) (headerCompleted_readsNothing env c)
  exact wp_mono (wp_weaken (heeds.unfed_wp s) fun _ _ _ => trivial) (fun _ t unfed => later t unfed)
    fun _ _ _ => trivial

theorem keepRest_drains (reading : Reading c cursor s) (unfinished : newline ∉ cursor.data) :
    Drains c (keepRest c cursor) s := by
  have unended := Reading.ends_unended reading unfinished
  obtain ⟨other, unserved⟩ := reading.waits
  rw [Drains, keepRest, wp_bind, wp_get]
  cases cursor.place with
  | array =>
      refine edit_drains (Http.Unheld.of_unended (Buffer.add_fits reading.fits _) unserved
        (fun step => absurd step other) ?_)
      exact (Buffer.add_contents reading.fits cursor.data).symm ▸ unended
  | block number =>
      cases added : (s.conns c).http.buffer.addOwn cursor.data with
      | none => trivial
      | some buffer =>
          have fits : buffer.Fits := by
            simp only [Buffer.addOwn] at added
            split at added
            · exact Option.some.inj added ▸ Buffer.add_fits reading.fits _
            · cases added
          refine edit_drains (Http.Unheld.of_unended fits unserved (fun step => absurd step other) ?_)
          exact (Buffer.addOwn_contents reading.fits added).symm ▸ unended

theorem rewind_drains (fits : (s.conns c).http.buffer.Fits) (empty : (s.conns c).http.buffer.contents = []) :
    Drains c (perform (.rewind c)) s := by
  refine ⟨trivial, .inr ?_⟩
  rw [Server.enter_conns, Server.modify_self]
  exact Http.Unheld.of_empty fits (fun same => by cases same) empty

theorem readHeader_keeps {http read : Http} {now start : Nat} {place : Place} {line : Bytes}
    (readEq : http.readHeader now place start line = .ok read) :
    read.step = http.step ∧ read.buffer = http.buffer := by
  unfold Http.readHeader at readEq
  cases headerEq : Http.Header.read line with
  | error error =>
      rw [headerEq] at readEq
      cases readEq
  | ok header =>
      rw [headerEq] at readEq
      obtain rfl := Except.ok.inj readEq
      cases header <;> exact ⟨rfl, rfl⟩

/-- The loop over the lines takes all that is complete. -/
theorem readLines_drains (fuel : Nat) (cursor : Cursor) (reading : Reading c cursor s) :
    Drains c (readLines env (headerCompleted env c) c fuel cursor) s := by
  induction fuel generalizing cursor s with
  | zero => trivial
  | succ fuel ih =>
      rw [readLines]
      rcases line_cases cursor.data with unfinished | ⟨line, rest, dataEq, plain⟩
      · rw [popLine_none unfinished, Drains, wp_bind, wp_get, if_pos reading.step]
        exact keepRest_drains reading unfinished
      · rw [dataEq, popLine_some plain]
        simp -zeta only
        extract_lets text after
        rw [Drains, wp_bind, wp_get]
        extract_lets http length behind body checked
        by_cases blank : text.isEmpty = true
        · rw [if_pos blank]
          have taken : Drains c (body ()) s := by
            unfold body
            refine step_drains ?_
            obtain ⟨t, tEq⟩ : ∃ t, s.endHead c (line ++ [newline] ++ rest.take length) (rest.take length) = t :=
              ⟨_, rfl⟩
            have buffer : (t.conns c).http.buffer = (s.conns c).http.buffer.clear := by
              rw [← tEq, Server.endHead, Server.modify_self]
              rfl
            have fits : (t.conns c).http.buffer.Fits := buffer ▸ Buffer.clear_fits reading.fits
            have empty : (t.conns c).http.buffer.contents = [] := by rw [buffer, Buffer.clear_contents]
            rw [Action.apply, tEq, Ends_returned]
            refine look_drains ?_
            split
            · refine answering_drains fun u unfed => ?_
              have same : (u.conns c).http.buffer = (t.conns c).http.buffer :=
                congrArg Intake.buffer (unfed.intake c)
              rw [← same] at fits empty
              split
              · refine look_drains ?_
                split
                · exact step_drains (ih _ (reading_rewound fits empty))
                · trivial
              · exact rewind_drains fits empty
            · rename_i unserved
              exact .inr (Http.Unheld.of_empty fits unserved empty)
          have checkedOk : Drains c (checked ()) s := by
            unfold checked
            split
            · trivial
            · exact taken
          split
          · trivial
          · exact checkedOk
        · have spoken : Spoken line := ⟨plain, fun empty => blank (List.isEmpty_iff.mpr empty)⟩
          have goesOn : ∀ t : Server, (t.conns c).http.buffer = (s.conns c).http.buffer →
              ((t.conns c).http.step = .start ∨ (t.conns c).http.step = .header) →
              Drains c (readLines env (headerCompleted env c) c fuel after) t :=
            fun t buffer step => ih after (reading.taken dataEq spoken buffer step _ _)
          rw [if_neg blank]
          split
          · rename_i start
            refine step_drains (Ends.mono (begin_ends s c _ text) (fun _ t begun => ?_) fun _ _ _ => trivial)
            refine look_drains ?_
            by_cases closed : (t.conns c).closed = true
            · rw [if_pos closed]
              exact .inl closed
            · rw [if_neg closed]
              have named : (Http.readMethod text).1.isEmpty = false := by
                rw [begun.closed, Bool.or_eq_true, not_or] at closed
                exact Bool.eq_false_of_not_eq_true closed.2
              refine goesOn t (by rw [begun.http]; rfl) (.inr ?_)
              rw [begun.http]
              simp [named]
          · rename_i other
            have header : http.step = .header := reading.step.resolve_left other
            rw [if_pos header]
            split
            · rename_i read readEq
              refine step_drains (goesOn _ ?_ (.inr ?_))
              · rw [Server.modify_self]
                exact (readHeader_keeps readEq).2
              · rw [Server.modify_self]
                exact (readHeader_keeps readEq).1.trans header
            · rename_i error _
              refine step_drains ?_
              split
              · refine step_drains (Ends.mono (Unfed.send_unfed (Unfed.refl _)) (fun _ t unfed => ?_)
                  fun _ _ _ => trivial)
                have intake : (t.conns c).http.intake = (s.conns c).http.intake := by
                  rw [unfed.intake, Server.modify_self]
                  rfl
                have step : (t.conns c).http.step = .header := (congrArg Intake.step intake).trans header
                exact goesOn t (congrArg Intake.buffer intake) (.inr step)
              · trivial

theorem parse_drains (fits : (s.conns c).http.buffer.Fits)
    (body : (s.conns c).http.step = .readBody → (s.conns c).http.buffer.contents = [])
    (lines : (s.conns c).http.step ≠ .readBody → Reading c cursor s) :
    Drains c (parse env (headerCompleted env c) c cursor) s := by
  rw [parse]
  refine look_drains ?_
  extract_lets http missing count left reads
  by_cases step : http.step = .readBody
  · have empty := body step
    have unserved : (s.conns c).http.step ≠ .requestCompleted := fun same => by cases step.symm.trans same
    have read : Drains c (reads ()) s := by
      unfold reads
      split
      · exact edit_drains (Http.Unheld.of_empty (Buffer.clear_fits fits) unserved (Buffer.clear_contents _))
      · refine step_drains (answering_drains fun t unfed => ?_)
        have same : (t.conns c).http.buffer = (s.conns c).http.buffer := by
          have kept := congrArg Intake.buffer (unfed.intake c)
          rw [Server.modify_self] at kept
          exact kept
        rw [← same] at fits empty
        refine step_drains ?_
        split
        · exact readLines_drains _ _ (reading_rewound fits empty)
        · exact (rewind_drains fits empty).2
    rw [if_pos step]
    split
    · trivial
    · exact read
  · rw [if_neg step]
    exact readLines_drains _ cursor (lines step)

end Routine

/-- What is stored at a connection that is not ready is no complete request, and not
the rest of a body. -/
def Taken (c : ConnId) (chunk : Bytes) (s : Server) : Prop :=
  (s.conns c).ready = true ∨ ((s.conns c).http.step ≠ .readBody ∧
    ¬ ({ (s.conns c).http with buffer := (s.conns c).http.buffer.add chunk } : Http).Holds)

namespace Routine

theorem storeOrParse_drains {chunk : Bytes} (taken : Taken c chunk s) (unheld : (s.conns c).http.Unheld) :
    Drains c (storeOrParse env (headerCompleted env c) c chunk) s := by
  have steps : (s.conns c).http.step ≠ .readBody →
      (s.conns c).http.step = .start ∨ (s.conns c).http.step = .header := by
    intro other
    have unserved := unheld.unserved
    cases stepEq : (s.conns c).http.step with
    | start => exact .inl rfl
    | header => exact .inr rfl
    | readBody => exact absurd stepEq other
    | requestCompleted => exact absurd stepEq unserved
  rw [storeOrParse]
  refine look_drains ?_
  extract_lets conn
  split
  · rename_i unready
    obtain ⟨other, holds⟩ := taken.resolve_left (by simpa using unready)
    exact edit_drains ⟨Buffer.add_fits unheld.fits chunk, unheld.unserved, fun step => absurd step other, holds⟩
  · split
    · rename_i stored
      have other : (s.conns c).http.step ≠ .readBody := by
        intro step
        have length := Buffer.contents_length unheld.fits
        rw [unheld.body step] at length
        exact stored length.symm
      refine step_drains ?_
      obtain ⟨t, tEq⟩ : ∃ t, (s.note (.taken c [])).modify c (fun conn => { conn with
        http := { conn.http with buffer := conn.http.buffer.add chunk } }) = t := ⟨_, rfl⟩
      have http : (t.conns c).http =
          { (s.conns c).http with buffer := (s.conns c).http.buffer.add chunk } := by
        rw [← tEq, Server.modify_self]
        rfl
      have step : (t.conns c).http.step = (s.conns c).http.step := by rw [http]
      have fits : (t.conns c).http.buffer.Fits := by
        rw [http]
        exact Buffer.add_fits unheld.fits chunk
      have reading : Reading c ⟨.block (t.conns c).http.buffer.block, 0, (t.conns c).http.buffer.contents⟩ t :=
        ⟨fits, step ▸ steps other, .inr ⟨[], rfl, fun _ member => by cases member⟩⟩
      rw [Action.apply, tEq, Ends_returned]
      exact look_drains (parse_drains fits (fun same => absurd (step.symm.trans same) other) fun _ => reading)
    · rename_i nothing
      have empty : (s.conns c).http.buffer.contents = [] := by
        rw [Buffer.contents, Classical.not_not.mp nothing, List.take_zero]
      exact parse_drains unheld.fits unheld.body fun other => ⟨unheld.fits, steps other, .inl empty⟩

theorem Taken.congr {chunk : Bytes} {t : Server} (taken : Taken c chunk s)
    (ready : (t.conns c).ready = (s.conns c).ready) (same : (t.conns c).http.intake = (s.conns c).http.intake) :
    Taken c chunk t := by
  have step : (t.conns c).http.step = (s.conns c).http.step := congrArg Intake.step same
  have length : (t.conns c).http.contentLength = (s.conns c).http.contentLength :=
    congrArg Intake.contentLength same
  have buffer : (t.conns c).http.buffer = (s.conns c).http.buffer := congrArg Intake.buffer same
  refine taken.imp (fun was => ready.trans was) fun ⟨other, holds⟩ => ⟨step ▸ other, fun held => holds ?_⟩
  unfold Http.Holds at held ⊢
  simp only [step, length, buffer] at held ⊢
  split at held
  · exact held
  · rename_i reading
    exact absurd reading other
  · exact held

theorem onRecv_drains {chunk : Bytes} (taken : Taken c chunk s) (unheld : (s.conns c).http.Unheld) :
    Drains c (onRecv env c chunk) s := by
  rw [onRecv, onRecvWith]
  refine look_drains ?_
  extract_lets ping store
  split
  · refine step_drains ?_
    obtain ⟨t, tEq⟩ : ∃ t, (s.note (.taken c [])).modify c (fun conn => { conn with
      http := { conn.http with pingTimeout := u32 (env.now s.tick + ping) } }) = t := ⟨_, rfl⟩
    have intake : (t.conns c).http.intake = (s.conns c).http.intake := by
      rw [← tEq, Server.modify_self]
      rfl
    have ready : (t.conns c).ready = (s.conns c).ready := by
      rw [← tEq, Server.modify_self]
      rfl
    rw [Action.apply, tEq, Ends_returned]
    exact storeOrParse_drains (Taken.congr taken ready intake) (unheld.congr intake)
  · exact storeOrParse_drains taken unheld

/-- What is left to do at a closed connection leaves it closed. -/
theorem close_drains (closed : (s.conns c).closed = true) :
    (close c).wp Action.apply (fun _ _ => True) (fun _ t => Drained c t) (fun _ t => Drained c t) s := by
  have heeds : Heeds ReadsNothing (close c) := close_heeds (readsNothing_frees.attends c)
    (readsNothing_frees.plain (.retire c) rfl)
  exact wp_mono (wp_weaken (heeds.unfed_wp s) fun _ _ _ => trivial)
    (fun _ t unfed => .inl (unfed.closed c closed)) fun _ t unfed => .inl (unfed.closed c closed)

theorem guarded_drains {routine : Routine Unit} (drains : Drains c routine s) :
    (guarded routine c).wp Action.apply (fun _ _ => True) (fun _ t => Drained c t) (fun _ t => Drained c t) s := by
  rw [guarded, wp_bind, wp_catching]
  refine wp_mono drains (fun _ t drained => ?_) fun error t _ => ?_
  · rw [wp_bind, wp_get]
    split
    · rename_i closed
      exact close_drains closed
    · exact drained
  · apply wp_perform_bind trivial
    rw [Action.apply, Ends_returned, wp_perform]
    refine ⟨trivial, ?_⟩
    have closed : ((((t.note (.caught error)).modify c fun conn => { conn with closed := true }).enter
        (.leaving c)).conns c).closed = true := by
      rw [Server.enter_conns, Server.modify_self]
    rw [Action.apply, Ends_returned, wp_bind, wp_get, if_pos closed]
    exact close_drains closed

end Routine

theorem Unfed.drained {s t : Server} {c : ConnId} (unfed : Unfed s t) (drained : Drained c s) : Drained c t :=
  drained.imp (unfed.closed c) fun unheld => unheld.congr (unfed.intake c)

namespace Routine

/-- A read of `c` takes all requests that are complete. -/
theorem recv_drains (env : Env) {chunk : Bytes} (taken : Taken c chunk s) (unheld : (s.conns c).http.Unheld) :
    ((Input.recv c chunk env).routine s).wp Action.apply (fun _ _ => True) (fun _ t => Drained c t)
      (fun _ t => Drained c t) s := by
  rw [Input.routine, Input.inLoop, wp_catching]
  apply wp_perform_bind trivial
  rw [Action.apply, Ends_returned]
  apply wp_perform_bind trivial
  rw [Action.apply, Ends_returned]
  refine wp_mono (guarded_drains (onRecv_drains taken unheld)) (fun _ t drained => drained) fun error t drained => ?_
  refine ⟨trivial, ?_⟩
  rw [Action.apply, Ends_returned]
  exact Unfed.drained ((Unfed.refl t).beside rfl rfl rfl rfl) drained

end Routine

/-! ### Other connections -/

/-- Nothing was read for another connection than `c`, and none was opened. -/
structure Aside (c : ConnId) (s t : Server) : Prop where
  intake : ∀ x, x ≠ c → (t.conns x).http.intake = (s.conns x).http.intake
  closed : ∀ x, x ≠ c → (s.conns x).closed = true → (t.conns x).closed = true

theorem Unfed.aside {s t : Server} (unfed : Unfed s t) (c : ConnId) : Aside c s t :=
  ⟨fun x _ => unfed.intake x, fun x _ => unfed.closed x⟩

theorem Aside.of_held {c : ConnId} {s t : Server} (same : ∀ x, x ≠ c → (t.conns x).held = (s.conns x).held) :
    Aside c s t := by
  constructor
  · exact fun x other => congrArg (fun held => held.2.2) (same x other)
  · exact fun x other closed => (congrArg Prod.fst (same x other)).trans closed

namespace Aside

variable {c x : ConnId} {s t u : Server}

theorem refl (s : Server) : Aside c s s := ⟨fun _ _ => rfl, fun _ _ closed => closed⟩

theorem trans (first : Aside c s t) (second : Aside c t u) : Aside c s u := by
  constructor
  · exact fun x other => (second.intake x other).trans (first.intake x other)
  · exact fun x other closed => second.closed x other (first.closed x other closed)

theorem drained (aside : Aside c s t) (other : x ≠ c) (drained : Drained x s) : Drained x t :=
  drained.imp (aside.closed x other) fun unheld => unheld.congr (aside.intake x other)

end Aside

/-- The action reads for `c` at most. -/
abbrev ReadsFor (c : ConnId) (action : Action) (s : Server) : Prop :=
  (action.apply s).Ends (fun _ t => Aside c s t) fun _ t => Aside c s t

theorem aside_of_update {c : ConnId} {s t : Server} {conn : Conn}
    (conns : t.conns = Function.update s.conns c conn) : Aside c s t := by
  refine .of_held fun x other => ?_
  rw [conns, Function.update_of_ne other]

theorem parser_aside (c : ConnId) {action : Action} (reads : action.reader = some c) (s : Server) :
    ReadsFor c action s := by
  cases action with
  | edit d taken change =>
      cases reads
      exact aside_of_update rfl
  | begin d taken line =>
      cases reads
      exact Ends.mono (begin_ends s c taken line) (fun _ _ begun => .of_held begun.others)
        fun _ _ cleared => .of_held cleared.others
  | endHead d taken body =>
      cases reads
      exact aside_of_update rfl
  | rewind d =>
      cases reads
      exact aside_of_update rfl
  | _ => cases reads

namespace Routine

theorem readsFor_frees (c : ConnId) : Frees (ReadsFor c) := by
  constructor
  · intro action serves s
    exact Ends.mono (readsNothing_frees.plain action serves s) (fun _ _ unfed => unfed.aside c)
      fun _ _ unfed => unfed.aside c
  · intro d change keeps deadline s assigns
    exact Ends.mono (readsNothing_frees.edit d change keeps deadline s assigns) (fun _ _ unfed => unfed.aside c)
      fun _ _ unfed => unfed.aside c

theorem recv_readsFor (env : Env) (c : ConnId) (chunk : Bytes) (s : Server) :
    Heeds (ReadsFor c) ((Input.recv c chunk env).routine s) := by
  have frees := (readsFor_frees c).attends c
  have completed : Heeds (ReadsFor c) (headerCompleted env c) :=
    headerCompleted_heeds frees (anyRegister_heeds frees fun _ s => Ends.mono
      (Unfed.apply_unfed s rfl fun _ _ => Action.noConfusion) (fun _ _ unfed => unfed.aside c)
      fun _ _ unfed => unfed.aside c)
  refine inLoop_heeds frees ((heeds_perform fun t => ?_).bind fun _ => ?_)
  · exact ⟨fun _ _ => rfl, fun _ _ closed => closed⟩
  · refine guarded_heeds frees ((readsFor_frees c).plain (.retire c) rfl) ?_
    exact onRecvWith_heeds frees completed (.free fun action reads => parser_aside c reads)
      (fun s => parser_aside c rfl s) chunk

end Routine

/-! ### Runs -/

namespace Input

/-- The connection whose `on_recv` runs. -/
def receiver : Input → Option ConnId
  | .recv c _ _ => some c
  | _ => none

def Takes (s : Server) : Input → Prop
  | .recv c chunk _ => Taken c chunk s
  | _ => True

end Input

/-- The states of runs whose reads are all taken, with the connection whose `on_recv`
is running. -/
inductive Attended : Option ConnId → Server → Prop where
  | new (threads : Nat) (jsonrpc2 : Bool) (version : Bytes) (startTime : Nat) :
      Attended none (Server.new threads jsonrpc2 version startTime)
  | step {s after : Server} (input : Input) :
      Attended none s → input.Enabled s → input.Takes s → (input.run s).2 = .returned after () →
      Attended none after
  | during {s : Server} (input : Input) (moment : Action × Server) :
      Attended none s → input.Enabled s → input.Takes s → moment ∈ (input.run s).1 →
      Attended input.receiver moment.2

theorem Input.readsNothing {input : Input} (other : input.receiver = none)
    (known : ∀ loop garbage, input ≠ .accept loop garbage) (s : Server) :
    Routine.Heeds ReadsNothing (input.routine s) := by
  have frees := Routine.readsNothing_frees
  cases input with
  | accept loop garbage => exact absurd rfl (known loop garbage)
  | recv c chunk env => cases other
  | send c sent =>
      have attends := frees.attends c
      refine Routine.inLoop_heeds attends (Routine.guarded_heeds attends (frees.plain (.retire c) rfl) ?_)
      exact Routine.free_heeds attends rfl rfl
  | hangup c =>
      exact Routine.inLoop_heeds (frees.attends c) (Routine.close_heeds (frees.attends c) (frees.plain (.retire c) rfl))
  | checkTimeout now => exact Routine.inLoop_heeds (frees.attends 0) (Routine.checkTimeout_heeds (frees.attends 0) now)
  | cleanDeadTasks => exact Routine.cleanDeadTasks_heeds (frees.attends 0)
  | deleteConnections loop =>
      exact Routine.inLoop_heeds (frees.attends 0) (Routine.free_heeds (frees.attends 0) rfl rfl)

theorem new_unheld : Http.new.Unheld :=
  .of_empty Buffer.empty_fits (fun same => by cases same) rfl

theorem accept_drained {s after : Server} {loop : Nat} {garbage : Garbage} {c : ConnId} (drained : Drained c s)
    (returned : (Action.accept loop garbage).apply s = .returned after ()) : Drained c after := by
  have conns : after.conns = Function.update s.conns s.accepted (Conn.new loop garbage) := by
    cases returned
    rfl
  by_cases new : c = s.accepted
  · rw [new, Drained, conns, Function.update_self]
    exact .inr new_unheld
  · rw [Drained, conns, Function.update_of_ne new]
    exact drained

theorem Input.run_meets {input : Input} {s after : Server} {guard : Action → Server → Prop}
    {Q : Unit → Server → Prop} {E : Exc → Server → Prop} (holds : (input.routine s).wp Action.apply guard Q E s)
    (returned : (input.run s).2 = .returned after ()) : Q () after := by
  have ends := outcome_ends holds
  rw [outcome] at ends
  rw [Input.run] at returned
  rw [returned] at ends
  exact ends

theorem Input.run_drains {input : Input} {s after : Server} (enabled : input.Enabled s) (takes : input.Takes s)
    (drained : ∀ c, Drained c s) (returned : (input.run s).2 = .returned after ()) (c : ConnId) :
    Drained c after := by
  have others : input.receiver = none → (∀ loop garbage, input ≠ .accept loop garbage) → Drained c after := by
    intro nothing known
    exact Unfed.drained (Input.run_meets ((Input.readsNothing nothing known s).unfed_wp s) returned) (drained c)
  cases input with
  | accept loop garbage =>
      have applied : ((Input.accept loop garbage).routine s).wp Action.apply (fun _ _ => True)
          (fun _ t => (Action.accept loop garbage).apply s = .returned t ()) (fun _ _ => True) s := ⟨trivial, rfl⟩
      exact accept_drained (drained c) (Input.run_meets applied returned)
  | recv d chunk env =>
      by_cases own : c = d
      · rw [own]
        have opened : (s.conns d).closed = false := enabled.1.2.2.1
        have unheld := (drained d).resolve_left (by simp [opened])
        exact Input.run_meets (Routine.recv_drains env takes unheld) returned
      · have aside := Input.run_meets
          (Heeds.relates Aside.refl Aside.trans (Routine.recv_readsFor env d chunk s) s) returned
        exact aside.drained own (drained c)
  | send d sent => exact others rfl fun _ _ => Input.noConfusion
  | hangup d => exact others rfl fun _ _ => Input.noConfusion
  | checkTimeout now => exact others rfl fun _ _ => Input.noConfusion
  | cleanDeadTasks => exact others rfl fun _ _ => Input.noConfusion
  | deleteConnections loop => exact others rfl fun _ _ => Input.noConfusion

/-- In the middle of it, for all connections but the one that is read. -/
theorem Input.moment_drains {input : Input} {s : Server} (drained : ∀ c, Drained c s) {moment : Action × Server}
    (member : moment ∈ (input.run s).1) {c : ConnId} (other : input.receiver ≠ some c) : Drained c moment.2 := by
  have others : input.receiver = none → (∀ loop garbage, input ≠ .accept loop garbage) →
      Drained c moment.2 := fun nothing known =>
    Unfed.drained ((Input.readsNothing nothing known s).unfed s member) (drained c)
  cases input with
  | accept loop garbage =>
      have same : moment = (.accept loop garbage, s) := by
        simpa [Input.run, Input.routine, moments_perform] using member
      rw [same]
      exact drained c
  | recv d chunk env =>
      have aside := moment_meets (Heeds.relates Aside.refl Aside.trans (Routine.recv_readsFor env d chunk s) s) member
      exact aside.drained (fun own => other (congrArg some own.symm)) (drained c)
  | send d sent => exact others rfl fun _ _ => Input.noConfusion
  | hangup d => exact others rfl fun _ _ => Input.noConfusion
  | checkTimeout now => exact others rfl fun _ _ => Input.noConfusion
  | cleanDeadTasks => exact others rfl fun _ _ => Input.noConfusion
  | deleteConnections loop => exact others rfl fun _ _ => Input.noConfusion

theorem Attended.drained {running : Option ConnId} {s : Server} (attended : Attended running s) :
    ∀ c, running ≠ some c → Drained c s := by
  induction attended with
  | new threads jsonrpc2 version startTime => exact fun c _ => .inl rfl
  | step input attended enabled takes returned ih =>
      exact fun c _ => Input.run_drains enabled takes (fun d => ih d (by simp)) returned c
  | during input moment attended enabled takes member ih =>
      exact fun c other => Input.moment_drains (fun d => ih d (by simp)) member other

/-- When each read is taken, no open connection whose `on_recv` is not running has
a complete request in its buffer. -/
theorem nothing_held {running : Option ConnId} {s : Server} (attended : Attended running s) {c : ConnId}
    (idle : running ≠ some c) (opened : (s.conns c).closed = false) : ¬ (s.conns c).http.Holds := by
  have unheld := (attended.drained c idle).resolve_left (by simp [opened])
  exact unheld.holds

/-- The first bytes of a request. -/
def firstBytes : Input := .recv 0 (ascii "GET /a HT") atRest

def keepsFirst (s : Server) : Bool :=
  match (firstBytes.run s).2 with
  | .returned after _ =>
      decide (firstBytes.Enabled s) && (s.conns 0).ready && decide ((after.conns 0).closed = false) &&
        decide ((after.conns 0).http.buffer.contents = ascii "GET /a HT")
  | _ => false

/-- They are stored, and the request is not complete. -/
theorem nothing_held_first : ∃ s, Attended none s ∧ (s.conns 0).http.buffer.contents = ascii "GET /a HT" ∧
    ¬ (s.conns 0).http.Holds := by
  obtain ⟨one, accepted⟩ : ∃ one, ((Input.accept 0 ⟨false, false, false⟩).run (Server.new 1 false [] 0)).2 =
    .returned one () := ⟨_, rfl⟩
  have attended : Attended none one :=
    .step (.accept 0 ⟨false, false, false⟩) (.new 1 false [] 0) (by decide) trivial accepted
  have ran : keepsFirst one = true := by
    cases accepted
    decide +kernel
  unfold keepsFirst at ran
  split at ran
  · rename_i after _ returned
    simp only [Bool.and_eq_true, decide_eq_true_eq] at ran
    obtain ⟨⟨⟨enabled, ready⟩, opened⟩, stored⟩ := ran
    have later : Attended none after := .step firstBytes attended enabled (.inl ready) returned
    exact ⟨after, later, stored, nothing_held later (by simp) opened⟩
  · cases ran

/-- A worker waits for a task of `a`, a client for its result. -/
def askedTwice : List Input :=
  [.accept 0 ⟨false, false, false⟩, .accept 0 ⟨false, false, false⟩,
    .recv 0 (ascii "GET /a HTTP/1.1\r\nType: get\r\n\r\n") atRest,
    .recv 1 (ascii "GET /a HTTP/1.1\r\nId: 7\r\n\r\n") atRest,
    .recv 1 (ascii "GET /b HTTP/1.1\r\n\r\n") atRest,
    .recv 0 (ascii "POST / HTTP/1.1\r\nType: result\r\nId: 7\r\n\r\n") atRest]

def leftOver (s : Server) : Bool :=
  decide (Input.open? s 1) && decide ((s.conns 1).status = .net) && decide ((s.conns 1).http.step = .start) &&
    decide ((s.conns 1).http.buffer.contents = ascii "GET /b HTTP/1.1\r\n\r\n")

/-- A request that came while the one before waited is left in the buffer. -/
theorem request_left_over : ∃ s, Reachable anything s ∧ Input.open? s 1 ∧ (s.conns 1).status = .net ∧
    (s.conns 1).http.Holds := by
  have ran : (afterAll askedTwice (Server.new 1 false [] 0)).map leftOver = some true := by
    decide +kernel
  obtain ⟨s, afterEq, test⟩ := Option.map_eq_some_iff.mp ran
  simp only [leftOver, Bool.and_eq_true, decide_eq_true_eq] at test
  obtain ⟨⟨⟨opened, status⟩, step⟩, contents⟩ := test
  refine ⟨s, reachable_afterAll (.new 1 false [] 0) afterEq, opened, status, ?_⟩
  rw [Http.Holds, step]
  refine ⟨ascii "GET /b HTTP/1.1\r", ascii "\r\n", contents, ?_, [], ascii "\r", [], ?_⟩
  · exact ⟨by decide, by decide⟩
  · have nothing : ∀ line ∈ ([] : List Bytes), Spoken line := fun _ member => by cases member
    exact ⟨rfl, nothing, by decide, by decide, by decide⟩

end Ijson
