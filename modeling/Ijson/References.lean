/-
References to connections.

A pointer to a connection is good until the connection is deleted, and each
reference that is held is given up by one `unlink`.
-/

import Ijson.Dispatch
import Ijson.Effects

namespace Ijson

open Program

namespace Server

variable {s t : Server}

/-- No connection among these has been deleted. -/
def Kept (s : Server) (conns : List ConnId) : Prop := ∀ x ∈ conns, (s.conns x).freed = false

instance (s : Server) (conns : List ConnId) : Decidable (s.Kept conns) :=
  inferInstanceAs (Decidable (∀ x ∈ conns, (s.conns x).freed = false))

/-! ### Giving up references -/

/-- `unlink` for one reference after the other. -/
def unlinkAll (s : Server) (refs : List ConnId) : Server := refs.foldl unlinked s

/-- None of these calls of `unlink` throws. -/
def Unlinkable (s : Server) : List ConnId → Prop
  | [] => True
  | c :: refs => 0 < (s.conns c).link ∧ (s.unlinked c).Unlinkable refs

theorem unlinkAll_append (s : Server) (refs more : List ConnId) :
    s.unlinkAll (refs ++ more) = (s.unlinkAll refs).unlinkAll more :=
  List.foldl_append

theorem unlinkable_append (s : Server) (refs more : List ConnId) :
    s.Unlinkable (refs ++ more) ↔ s.Unlinkable refs ∧ (s.unlinkAll refs).Unlinkable more := by
  induction refs generalizing s with
  | nil => exact ⟨fun later => ⟨trivial, later⟩, fun both => both.2⟩
  | cons c refs ih =>
      rw [List.cons_append, Unlinkable, Unlinkable, ih, and_assoc]
      rfl

theorem unlinkAll_conns (s : Server) (refs : List ConnId) (x : ConnId) :
    (s.unlinkAll refs).conns x = { s.conns x with link := (s.conns x).link - refs.count x } := by
  induction refs generalizing s with
  | nil => simp [unlinkAll]
  | cons c refs ih =>
      change ((s.unlinked c).unlinkAll refs).conns x = _
      rw [ih, unlinked_conns, List.count_cons]
      by_cases same : x = c
      · subst same
        simp only [if_pos, BEq.rfl, Int.natCast_add, Int.natCast_one]
        congr 1
        omega
      · have different : ¬(c == x) = true := by simpa using Ne.symm same
        simp only [if_neg same, if_neg different, Nat.add_zero]

/-- Only the counts and the list of dead connections change. -/
theorem unlinkAll_eq (s : Server) (refs : List ConnId) :
    s.unlinkAll refs = { s with conns := (s.unlinkAll refs).conns, dead := (s.unlinkAll refs).dead } := by
  induction refs generalizing s with
  | nil => rfl
  | cons c refs ih => exact ih (s.unlinked c)

theorem unlinkable_congr {refs : List ConnId} (same : ∀ x, (t.conns x).link = (s.conns x).link) :
    t.Unlinkable refs ↔ s.Unlinkable refs := by
  induction refs generalizing s t with
  | nil => rfl
  | cons c refs ih =>
      rw [Unlinkable, Unlinkable, same c]
      refine and_congr_right fun _ => ih fun x => ?_
      simp only [unlinked_conns, same x]

/-- As many references are there as are given up. -/
theorem unlinkable_iff (s : Server) (refs : List ConnId) :
    s.Unlinkable refs ↔ ∀ x ∈ refs, (refs.count x : Int) ≤ (s.conns x).link := by
  induction refs generalizing s with
  | nil => simp [Unlinkable]
  | cons c refs ih =>
      rw [Unlinkable, ih]
      constructor
      · rintro ⟨positive, later⟩ x member
        by_cases same : x = c
        · subst same
          rw [List.count_cons_self]
          by_cases again : x ∈ refs
          · have rest := later x again
            simp only [unlinked_conns, if_pos] at rest
            omega
          · rw [List.count_eq_zero_of_not_mem again]
            omega
        · rw [List.count_cons_of_ne (Ne.symm same)]
          have rest := later x ((List.mem_cons.mp member).resolve_left same)
          simpa only [unlinked_conns, if_neg same] using rest
      · intro enough
        have first := enough c List.mem_cons_self
        rw [List.count_cons_self] at first
        refine ⟨by omega, fun x member => ?_⟩
        have whole := enough x (List.mem_cons_of_mem c member)
        simp only [unlinked_conns]
        by_cases same : x = c
        · subst same
          rw [if_pos rfl]
          omega
        · rw [if_neg same]
          rwa [List.count_cons_of_ne (Ne.symm same)] at whole

instance (s : Server) (refs : List ConnId) : Decidable (s.Unlinkable refs) :=
  decidable_of_iff _ (unlinkable_iff s refs).symm

/-- A connection is declared dead when its last reference is given up. -/
theorem unlinkAll_dead {refs : List ConnId} (unlinkable : s.Unlinkable refs) :
    ∃ last, (s.unlinkAll refs).dead = s.dead ++ last ∧ last.Nodup ∧
      ∀ x, x ∈ last ↔ x ∈ refs ∧ (refs.count x : Int) = (s.conns x).link := by
  induction refs generalizing s with
  | nil => exact ⟨[], by simp [unlinkAll], List.nodup_nil, fun x => by simp⟩
  | cons c refs ih =>
      obtain ⟨last, deadEq, distinct, mem⟩ := ih unlinkable.2
      have enough := (unlinkable_iff s (c :: refs)).mp unlinkable c List.mem_cons_self
      rw [List.count_cons_self] at enough
      have others : ∀ x, x ≠ c → (x ∈ last ↔ x ∈ c :: refs ∧ ((c :: refs).count x : Int) = (s.conns x).link) := by
        intro x different
        rw [mem, unlinked_conns, if_neg different, List.count_cons_of_ne different.symm, List.mem_cons,
          or_iff_right different]
      by_cases ends : (s.conns c).link - 1 = 0
      · have absent : c ∉ last := by
          rw [mem, unlinked_conns]
          simp only [if_pos, not_and]
          intro member
          have positive := List.count_pos_iff.mpr member
          omega
        have nothing : refs.count c = 0 := by omega
        refine ⟨c :: last, ?_, List.nodup_cons.mpr ⟨absent, distinct⟩, fun x => ?_⟩
        · change ((s.unlinked c).unlinkAll refs).dead = _
          rw [deadEq, unlinked, if_pos ends, List.append_assoc]
          rfl
        · by_cases same : x = c
          · subst same
            rw [List.count_cons_self, nothing]
            exact iff_of_true List.mem_cons_self ⟨List.mem_cons_self, by omega⟩
          · rw [List.mem_cons, or_iff_right same, others x same]
      · refine ⟨last, ?_, distinct, fun x => ?_⟩
        · change ((s.unlinked c).unlinkAll refs).dead = _
          rw [deadEq, unlinked, if_neg ends]
        · by_cases same : x = c
          · subst same
            rw [mem, unlinked_conns, List.count_cons_self]
            simp only [if_pos]
            constructor
            · rintro ⟨member, whole⟩
              exact ⟨List.mem_cons_self, by omega⟩
            · rintro ⟨-, whole⟩
              have positive : 0 < refs.count x := by omega
              exact ⟨List.count_pos_iff.mp positive, by omega⟩
          · exact others x same

theorem unlink_noexcept {d : ConnId} : (s.unlink d).noexcept = .returned t () ↔
    0 < (s.conns d).link ∧ t = s.unlinked d := by
  rw [unlink_eq]
  by_cases positive : 0 < (s.conns d).link
  · rw [if_pos positive, Result.noexcept, Outcome.returned.injEq, eq_comm]
    simp [positive]
  · rw [if_neg positive]
    exact iff_of_false (fun same => by cases same) fun both => positive both.1

/-! ### Open connections -/

theorem send_returns {c : ConnId} {response : Response} {next : Server → Result}
    (returns : ∀ u, ∃ v, next u = .returned v ()) :
    (∃ u, (s.send c response).andThen next = .returned u ()) ↔ (s.conns c).closed = false := by
  cases closed : (s.conns c).closed with
  | false =>
      rw [send_open closed]
      exact iff_of_true (returns _) rfl
  | true =>
      unfold send
      rw [if_pos closed]
      exact iff_of_false (fun ⟨u, same⟩ => by cases same) Bool.false_ne_true.symm

theorem modify_closed (s : Server) (x : ConnId) {change : Conn → Conn} {y : ConnId}
    (keeps : ∀ conn, (change conn).closed = conn.closed) : ((s.modify x change).conns y).closed = (s.conns y).closed := by
  rw [modify_conns]
  split
  · rename_i same
    rw [keeps, same]
  · rfl

theorem claimed_closed (s : Server) (w d x : ConnId) :
    ((if (s.conns w).failOnDisconnect then (s.modify w fun conn => { conn with client := some d }).link d
      else s).conns x).closed = (s.conns x).closed := by
  split
  · rw [link_conns]
    exact modify_closed s w fun _ => rfl
  · rfl

theorem takeId_named {d : ConnId} {random : Nat} {http : Http} {made : Bool}
    (named : (s.conns d).http.requestId s.generated random = .ok (http, made)) :
    ∃ v, s.takeId d random = some (v, http.id) ∧
      v = { s with generated := if made then s.generated + 1 else s.generated }.modify d
        fun conn => { conn with http := http } := by
  unfold takeId
  rw [named]
  exact ⟨_, rfl, rfl⟩

end Server

namespace Routine

variable {s t : Server}

/-! ### Access -/

theorem get_outcome {α : Type} {rest : Server → Routine α} :
    (get >>= rest).outcome Action.apply s = (rest s).outcome Action.apply s := rfl

theorem use_outcome {α : Type} {d : ConnId} {rest : Conn → Routine α} :
    (use d >>= rest).outcome Action.apply s =
      if (s.conns d).freed then .fault else (rest (s.conns d)).outcome Action.apply s := by
  rw [outcome_bind, use, get_outcome]
  cases (s.conns d).freed <;> rfl

theorem perform_outcome {α : Type} {action : Action} {rest : Unit → Routine α} {after : Server}
    (applied : action.apply s = .returned after ()) :
    (perform action >>= rest).outcome Action.apply s = (rest ()).outcome Action.apply after := by
  rw [outcome_bind, outcome_perform, applied]
  rfl

theorem use_returned {α : Type} {c : ConnId} {rest : Conn → Routine α} {value : α} :
    (use c >>= rest).outcome Action.apply s = .returned t value ↔
      (s.conns c).freed = false ∧ (rest (s.conns c)).outcome Action.apply s = .returned t value := by
  rw [use_outcome]
  cases (s.conns c).freed with
  | true => simp
  | false => simp

/-! ### The `GC` -/

theorem collectAll_returned (messages : List Message) (s : Server) :
    (collectAll messages.length).outcome Action.apply { s with gc := messages } = .returned t () ↔
      s.Unlinkable (messages.filterMap Message.conn) ∧
        t = { s.unlinkAll (messages.filterMap Message.conn) with gc := [] } := by
  induction messages generalizing s with
  | nil =>
      rw [List.length_nil, collectAll, pure_returned, List.filterMap_nil]
      change t = { s with gc := [] } ∧ () = () ↔ True ∧ t = { s with gc := [] }
      simp only [and_true, true_and]
  | cons message messages ih =>
      rw [List.length_cons, collectAll, act_returned]
      simp only [Action.apply, Server.collect, Server.deleteMessage]
      cases conn : message.conn with
      | none =>
          rw [List.filterMap_cons_none conn]
          simp only [Outcome.returned.injEq, and_true, exists_eq_left']
          exact ih s
      | some d =>
          rw [List.filterMap_cons_some conn]
          constructor
          · rintro ⟨middle, ended, later⟩
            obtain ⟨positive, rfl⟩ := Server.unlink_noexcept.mp ended
            obtain ⟨enough, same⟩ := (ih (s.unlinked d)).mp later
            exact ⟨⟨positive, enough⟩, same⟩
          · rintro ⟨⟨positive, enough⟩, same⟩
            exact ⟨_, Server.unlink_noexcept.mpr ⟨positive, rfl⟩, (ih (s.unlinked d)).mpr ⟨enough, same⟩⟩

theorem release_returned : release.outcome Action.apply s = .returned t () ↔
    s.Unlinkable (s.gc.filterMap Message.conn) ∧
      t = { s.unlinkAll (s.gc.filterMap Message.conn) with gc := [] } :=
  collectAll_returned s.gc s

end Routine

end Ijson
