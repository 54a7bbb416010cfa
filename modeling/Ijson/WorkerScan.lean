/-
When the search of `client_request` returns.

The search reads every entry up to the first worker that suits, and gives up a
reference for each stale one on the way.  It returns exactly when none of the
entries it reads has been deleted and the references are there.
-/

import Ijson.References
import Ijson.WorkerSearch

namespace Ijson

open Program

namespace Server

variable {s t : Server} {required : Bytes}

/-- The worker is the one `client_request` looks for. -/
def suits (s : Server) (required : Bytes) (w : ConnId) : Bool := s.idle w && s.wanted required w

/-- The search takes the entry out. -/
def drops (s : Server) (required : Bytes) (w : ConnId) : Bool := s.wanted required w && !s.idle w

/-- The entries the search reads. -/
def searched (s : Server) (required : Bytes) : List ConnId → List ConnId
  | [] => []
  | w :: rest => w :: if s.suits required w then [] else s.searched required rest

/-- The entries it takes out. -/
def dropped (s : Server) (required : Bytes) (entries : List ConnId) : List ConnId :=
  (s.searched required entries).filter (s.drops required)

/-- The first worker that suits, in the order of the loops. -/
def pick (s : Server) (i : Nat) (required : Bytes) (loops : List Nat) : Option (Nat × ConnId) :=
  (loops.filterMap fun j => ((s.workersIn i j).find? (s.suits required)).map (Prod.mk j)).head?

theorem searched_append (s : Server) (required : Bytes) (first second : List ConnId) :
    s.searched required (first ++ second) = s.searched required first ++
      if (first.find? (s.suits required)).isSome then [] else s.searched required second := by
  induction first with
  | nil => rfl
  | cons w first ih =>
      rw [List.cons_append, searched, searched, List.find?_cons]
      cases s.suits required w with
      | true => rfl
      | false => simp only [Bool.false_eq_true, if_false, ih, List.cons_append]

theorem searched_prefix (s : Server) (required : Bytes) (entries : List ConnId) :
    s.searched required entries <+: entries := by
  induction entries with
  | nil => exact List.prefix_rfl
  | cons w entries ih =>
      rw [searched]
      split
      · exact (List.prefix_cons_inj w).mpr List.nil_prefix
      · exact (List.prefix_cons_inj w).mpr ih

section Same

variable (same : ∀ x, t.conns x = { s.conns x with link := (t.conns x).link })

include same

theorem idle_same (x : ConnId) : t.idle x = s.idle x := by
  rw [idle, same x]
  rfl

theorem kept_same (conns : List ConnId) : t.Kept conns ↔ s.Kept conns := by
  have freed : ∀ x, (t.conns x).freed = (s.conns x).freed := fun x => by rw [same x]
  simp only [Kept, freed]

theorem wanted_same (required : Bytes) (w : ConnId) : t.wanted required w = s.wanted required w := by
  rw [wanted, same w]
  rfl

theorem drops_same (required : Bytes) : t.drops required = s.drops required := by
  funext w
  rw [drops, drops, wanted_same same, idle_same same]

theorem suits_same (required : Bytes) : t.suits required = s.suits required := by
  funext w
  rw [suits, suits, wanted_same same, idle_same same]

theorem searched_same (required : Bytes) (entries : List ConnId) :
    t.searched required entries = s.searched required entries := by
  induction entries with
  | nil => rfl
  | cons w entries ih => rw [searched, searched, suits_same same, ih]

end Same

theorem unlinked_same (s : Server) (c x : ConnId) :
    (s.unlinked c).conns x = { s.conns x with link := ((s.unlinked c).conns x).link } := by
  rw [unlinked_conns]

theorem unlinkAll_same (s : Server) (refs : List ConnId) (x : ConnId) :
    (s.unlinkAll refs).conns x = { s.conns x with link := ((s.unlinkAll refs).conns x).link } := by
  rw [unlinkAll_conns]

theorem unlinkAll_conns_congr {s t : Server} (refs : List ConnId) (conns : t.conns = s.conns) :
    (t.unlinkAll refs).conns = (s.unlinkAll refs).conns := by
  funext x
  rw [unlinkAll_conns, unlinkAll_conns, conns]

end Server

namespace Routine

variable {i j : Nat} {s t : Server} {required : Bytes}

/-- The state beyond a part of the search in which these entries were taken out of
the deques of `loops`. -/
structure Beyond (t u : Server) (i : Nat) (loops : List Nat) (gone : List ConnId) : Prop where
  conns : u.conns = (t.unlinkAll gone).conns
  lines : Server.SameLines t u
  others : ∀ j' ∉ loops, u.workersIn i j' = t.workersIn i j'

theorem Beyond.refl (t : Server) (i : Nat) (loops : List Nat) : Beyond t t i loops [] :=
  ⟨rfl, .of_registry rfl, fun _ _ => rfl⟩

theorem Beyond.trans {u v : Server} {first second : List Nat} {gone more : List ConnId}
    (one : Beyond t u i first gone) (two : Beyond u v i second more) :
    Beyond t v i (first ++ second) (gone ++ more) where
  conns := by rw [two.conns, Server.unlinkAll_append, Server.unlinkAll_conns_congr more one.conns]
  lines := one.lines.trans two.lines
  others j' outside := by
    rw [List.mem_append, not_or] at outside
    exact (two.others j' outside.2).trans (one.others j' outside.1)

theorem Beyond.same {u : Server} {loops : List Nat} {gone : List ConnId} (beyond : Beyond t u i loops gone)
    (x : ConnId) : u.conns x = { t.conns x with link := (u.conns x).link } := by
  rw [beyond.conns, Server.unlinkAll_same]

/-- The search returns beyond the entries it takes out, with the first worker that
suits; or it meets a deleted connection or a count that is too low. -/
def Searches (t : Server) (i : Nat) (required : Bytes) (loops : List Nat) (entries : List ConnId) {α : Type}
    (stands : Server → α → Prop) (outcome : Outcome Server Exc α) : Prop :=
  (t.Kept (t.searched required entries) ∧ t.Unlinkable (t.dropped required entries) ∧ ∃ u found,
    outcome = .returned u found ∧ Beyond t u i loops (t.dropped required entries) ∧ stands u found) ∨
    ¬(t.Kept (t.searched required entries) ∧ t.Unlinkable (t.dropped required entries)) ∧
      ∀ u found, outcome ≠ .returned u found

theorem Searches.passed {α : Type} {loops : List Nat} {entries : List ConnId} {stands : Server → α → Prop}
    {outcome : Outcome Server Exc α} {w : ConnId} (searches : Searches t i required loops entries stands outcome)
    (kept : (t.conns w).freed = false) (suits : t.suits required w = false) (stays : t.drops required w = false) :
    Searches t i required loops (w :: entries) stands outcome := by
  have read : t.searched required (w :: entries) = w :: t.searched required entries := by
    rw [Server.searched, suits, if_neg Bool.false_ne_true]
  have gone : t.dropped required (w :: entries) = t.dropped required entries := by
    rw [Server.dropped, read, List.filter_cons, stays, if_neg Bool.false_ne_true]
    rfl
  have keeps : t.Kept (t.searched required (w :: entries)) ↔ t.Kept (t.searched required entries) := by
    rw [read, Server.Kept, List.forall_mem_cons]
    exact and_iff_right kept
  rw [Searches, keeps, gone]
  exact searches

theorem Beyond.searches {m : Server} {loops : List Nat} {gone : List ConnId} (beyond : Beyond t m i loops gone)
    (entries : List ConnId) : (m.Kept (m.searched required entries) ↔ t.Kept (t.searched required entries)) ∧
      m.dropped required entries = t.dropped required entries ∧
      (m.Unlinkable (m.dropped required entries) ↔ (t.unlinkAll gone).Unlinkable (t.dropped required entries)) := by
  have dropped : m.dropped required entries = t.dropped required entries := by
    rw [Server.dropped, Server.dropped, Server.searched_same beyond.same, Server.drops_same beyond.same]
  refine ⟨?_, dropped, ?_⟩
  · rw [Server.searched_same beyond.same, Server.kept_same beyond.same]
  · rw [dropped]
    exact Server.unlinkable_congr fun x => by rw [beyond.conns]

theorem Searches.took {α : Type} {loops : List Nat} {entries : List ConnId} {stands : Server → α → Prop}
    {outcome : Outcome Server Exc α} {m : Server} {w : ConnId} (beyond : Beyond t m i loops [w])
    (kept : (t.conns w).freed = false) (suits : t.suits required w = false) (goes : t.drops required w = true)
    (searches : 0 < (t.conns w).link → Searches m i required loops entries stands outcome)
    (stuck : ¬0 < (t.conns w).link → ∀ u found, outcome ≠ .returned u found) :
    Searches t i required loops (w :: entries) stands outcome := by
  have read : t.searched required (w :: entries) = w :: t.searched required entries := by
    rw [Server.searched, suits, if_neg Bool.false_ne_true]
  have gone : t.dropped required (w :: entries) = w :: t.dropped required entries := by
    rw [Server.dropped, read, List.filter_cons, goes, if_pos rfl]
    rfl
  have keeps : t.Kept (t.searched required (w :: entries)) ↔ t.Kept (t.searched required entries) := by
    rw [read, Server.Kept, List.forall_mem_cons]
    exact and_iff_right kept
  rw [Searches, keeps, gone]
  by_cases positive : 0 < (t.conns w).link
  · have linked : t.Unlinkable (w :: t.dropped required entries) ↔
        (t.unlinkAll [w]).Unlinkable (t.dropped required entries) := and_iff_right positive
    obtain ⟨keptNow, droppedNow, linkedNow⟩ := beyond.searches entries
    rw [linked, ← keptNow, ← linkedNow]
    rcases searches positive with ⟨alive, enough, u, found, ran, later, stands⟩ | failed
    · refine .inl ⟨alive, enough, u, found, ran, ?_, stands⟩
      rw [droppedNow] at later
      have both := beyond.trans later
      exact ⟨both.conns, both.lines, fun j' outside => both.others j' (by simp [outside])⟩
    · exact .inr failed
  · exact .inr ⟨fun both => positive both.2.1, stuck positive⟩

theorem eraseWorker_beyond (t : Server) (i j p : Nat) (w : ConnId) :
    Beyond t ((t.eraseWorker i j p).unlinked w) i [j] [w] where
  conns := by
    change ((t.eraseWorker i j p).unlinkAll [w]).conns = _
    exact Server.unlinkAll_conns_congr [w] (Server.eraseWorker_conns i j p)
  lines := (Server.eraseWorker_sameLines t i j p).trans (.of_registry rfl)
  others j' outside := by
    change (t.eraseWorker i j p).workersIn i j' = _
    rw [Server.eraseWorker_workersIn, if_neg fun both => outside (List.mem_singleton.mpr both.2)]

theorem findWorker_searches (j : Nat) (required : Bytes) (fuel : Nat) (kept rest : List ConnId) {t : Server}
    (entries : t.workersIn i j = kept ++ rest) (enough : rest.length ≤ fuel) :
    Searches t i required [j] rest
      (fun u found => found.map (u.workerAt i j) = (rest.find? (t.suits required)).map some)
      ((findWorker i j required fuel kept.length).outcome Action.apply t) := by
  induction fuel generalizing kept rest t with
  | zero =>
      have nothing : rest = [] := by simpa using enough
      subst nothing
      exact .inl ⟨List.forall_mem_nil _, trivial, t, none, rfl, .refl t i [j], rfl⟩
  | succ fuel ih =>
      rw [findWorker, get_outcome, Server.workerAt_workersIn, entries]
      cases rest with
      | nil =>
          rw [List.append_nil, List.getElem?_eq_none (Nat.le_refl _)]
          exact .inl ⟨List.forall_mem_nil _, trivial, t, none, rfl, .refl t i [j], rfl⟩
      | cons w rest =>
          have here : (kept ++ w :: rest)[kept.length]? = some w := by simp
          have fewer : rest.length ≤ fuel := by
            rw [List.length_cons] at enough
            omega
          simp only [here]
          rw [use_outcome]
          cases freed : (t.conns w).freed with
          | true =>
              refine .inr ⟨fun both => ?_, fun u found same => by cases same⟩
              have alive := both.1 w List.mem_cons_self
              rw [freed] at alive
              cases alive
          | false =>
              rw [if_neg Bool.false_ne_true]
              cases mine : t.wanted required w with
              | false =>
                  have test : (!required.isEmpty && decide (required ≠ (t.conns w).http.connectionId)) = true := by
                    simpa [Server.wanted] using mine
                  have suits : t.suits required w = false := by rw [Server.suits, mine, Bool.and_false]
                  have stays : t.drops required w = false := by rw [Server.drops, mine, Bool.false_and]
                  have length : kept.length + 1 = (kept ++ [w]).length := by simp
                  rw [if_pos test, length, List.find?_cons, suits]
                  exact (ih (kept ++ [w]) rest (by simpa using entries) fewer).passed freed suits stays
              | true =>
                  have test : ¬(!required.isEmpty && decide (required ≠ (t.conns w).http.connectionId)) = true := by
                    simpa [Server.wanted, or_iff_not_imp_left] using mine
                  rw [if_neg test, List.find?_cons]
                  cases waits : t.idle w with
                  | true =>
                      have stays : ¬((t.conns w).closed || decide ((t.conns w).status ≠ .workerWaitJob)) = true := by
                        simpa [Server.idle] using waits
                      have suits : t.suits required w = true := by rw [Server.suits, mine, waits, Bool.and_true]
                      have read : t.searched required (w :: rest) = [w] := by rw [Server.searched, suits, if_pos rfl]
                      have gone : t.dropped required (w :: rest) = [] := by
                        rw [Server.dropped, read, List.filter_singleton, Server.drops, waits, Bool.not_true,
                          Bool.and_false]
                        rfl
                      rw [if_neg stays, suits]
                      refine .inl ⟨?_, ?_, t, some kept.length, rfl, ?_, ?_⟩
                      · rw [read]
                        exact List.forall_mem_singleton.mpr freed
                      · rw [gone]
                        trivial
                      · rw [gone]
                        exact Beyond.refl t i [j]
                      · have stands : t.workerAt i j kept.length = some w := by
                          rw [Server.workerAt_workersIn, entries, here]
                        exact congrArg some stands
                  | false =>
                      have leaves : ((t.conns w).closed || decide ((t.conns w).status ≠ .workerWaitJob)) = true := by
                        rw [Server.idle] at waits
                        cases closed : (t.conns w).closed with
                        | true => rfl
                        | false => simpa [closed] using waits
                      have suits : t.suits required w = false := by rw [Server.suits, waits, Bool.false_and]
                      have goes : t.drops required w = true := by rw [Server.drops, mine, waits]; rfl
                      rw [if_pos leaves, suits]
                      have found : t.workerAt i j kept.length = some w := by
                        rw [Server.workerAt_workersIn, entries, here]
                      have erased : ((t.eraseWorker i j kept.length).unlinked w).workersIn i j = kept ++ rest := by
                        change (t.eraseWorker i j kept.length).workersIn i j = _
                        rw [Server.eraseWorker_workersIn, if_pos ⟨rfl, rfl⟩, entries]
                        simp [List.eraseIdx_append_of_length_le]
                      rw [outcome_bind, outcome_perform]
                      simp only [Action.apply, Server.dropEntry, found]
                      rw [Server.unlink_eq, Server.eraseWorker_conns]
                      have beyond := eraseWorker_beyond t i j kept.length w
                      have next := ih kept rest erased fewer
                      rw [Server.suits_same beyond.same] at next
                      refine Searches.took beyond freed suits goes (fun positive => ?_) fun stuck u found => ?_
                      · rw [if_pos positive]
                        exact next
                      · rw [if_neg stuck]
                        exact fun same => by cases same

/-- The worker at the place a search ended with. -/
def picked (u : Server) (i : Nat) (place : Option (Nat × Nat)) : Option (Nat × Option ConnId) :=
  place.map fun found => (found.1, u.workerAt i found.1 found.2)

/-- The search goes on behind a deque in which nobody suits. -/
theorem Searches.chain {α : Type} {u : Server} {loops more : List Nat} {first second : List ConnId}
    {stands : Server → α → Prop} {outcome : Outcome Server Exc α} (alive : t.Kept (t.searched required first))
    (enough : t.Unlinkable (t.dropped required first)) (beyond : Beyond t u i loops (t.dropped required first))
    (unsuited : first.find? (t.suits required) = none) (searches : Searches u i required more second stands outcome) :
    Searches t i required (loops ++ more) (first ++ second) stands outcome := by
  have read : t.searched required (first ++ second) = t.searched required first ++ t.searched required second := by
    rw [Server.searched_append, unsuited]
    rfl
  have gone : t.dropped required (first ++ second) = t.dropped required first ++ t.dropped required second := by
    rw [Server.dropped, read, List.filter_append]
    rfl
  have keeps : t.Kept (t.searched required (first ++ second)) ↔ t.Kept (t.searched required second) := by
    rw [read, Server.Kept, List.forall_mem_append]
    exact and_iff_right alive
  obtain ⟨keptNow, droppedNow, linkedNow⟩ := beyond.searches second
  rw [Searches, keeps, gone, Server.unlinkable_append, and_iff_right enough, ← keptNow, ← linkedNow]
  rcases searches with ⟨kept, linked, v, found, ran, later, stands⟩ | failed
  · rw [droppedNow] at later
    exact .inl ⟨kept, linked, v, found, ran, beyond.trans later, stands⟩
  · exact .inr failed

theorem findWorkerIn_searches (required : Bytes) (loops : List Nat) (distinct : loops.Nodup) {t : Server}
    (deques : ∀ j ∈ loops, (t.queue i j).isSome = true) :
    Searches t i required loops (loops.flatMap (t.workersIn i))
      (fun u place => picked u i place = (t.pick i required loops).map fun found => (found.1, some found.2))
      ((findWorkerIn i required loops).outcome Action.apply t) := by
  induction loops generalizing t with
  | nil => exact .inl ⟨List.forall_mem_nil _, trivial, t, none, rfl, .refl t i [], rfl⟩
  | cons j loops ih =>
      rw [List.nodup_cons] at distinct
      obtain ⟨queue, isQueue⟩ := Option.isSome_iff_exists.mp (deques j List.mem_cons_self)
      have entries := Server.workersIn_of_queue isQueue
      have one := findWorker_searches j required queue.workers.length [] (t.workersIn i j) rfl (by rw [entries])
      rw [findWorkerIn, get_outcome, isQueue, List.flatMap_cons]
      simp only
      rw [outcome_bind]
      rcases one with ⟨alive, enough, u, found, ran, beyond, stands⟩ | ⟨failed, ran⟩
      · change (findWorker i j required queue.workers.length 0).outcome Action.apply t = _ at ran
        rw [ran]
        cases first : (t.workersIn i j).find? (t.suits required) with
        | some w =>
            rw [first] at stands
            obtain ⟨p, rfl, place⟩ := Option.map_eq_some_iff.mp stands
            have read : t.searched required (t.workersIn i j ++ loops.flatMap (t.workersIn i)) =
                t.searched required (t.workersIn i j) := by
              rw [Server.searched_append, first, Option.isSome_some, if_pos rfl, List.append_nil]
            have picks : t.pick i required (j :: loops) = some (j, w) := by
              rw [Server.pick, List.filterMap_cons, first]
              rfl
            rw [Searches, Server.dropped, read, picks]
            refine .inl ⟨alive, enough, u, some (j, p), rfl, ?_, ?_⟩
            · exact ⟨beyond.conns, beyond.lines, fun j' outside => beyond.others j' (by
                rw [List.mem_cons, not_or] at outside
                simpa using outside.1)⟩
            · rw [picked]
              simp [place]
        | none =>
            rw [first] at stands
            obtain rfl := Option.map_eq_none_iff.mp stands
            have lists : ∀ j' ∈ loops, u.workersIn i j' = t.workersIn i j' := fun j' member =>
              beyond.others j' fun here => distinct.1 (List.mem_singleton.mp here ▸ member)
            have rest := ih distinct.2 (t := u) fun j' member => by
              rw [beyond.lines.deques]
              exact deques j' (List.mem_cons_of_mem j member)
            have picks : t.pick i required (j :: loops) = u.pick i required loops := by
              rw [Server.pick, List.filterMap_cons, first, Server.pick, Server.suits_same beyond.same]
              exact congrArg List.head? (List.filterMap_congr fun j' member => by rw [lists j' member])
            rw [List.flatMap_congr lists, ← picks] at rest
            exact rest.chain alive enough beyond first
      · change ∀ u found, (findWorker i j required queue.workers.length 0).outcome Action.apply t ≠ _ at ran
        refine .inr ⟨fun both => failed ?_, fun u found same => ?_⟩
        · rw [Server.dropped, Server.searched_append, List.filter_append, Server.unlinkable_append] at both
          exact ⟨fun x member => both.1 x (List.mem_append_left _ member), both.2.1⟩
        · cases missed : (findWorker i j required queue.workers.length 0).outcome Action.apply t with
          | returned v value => exact ran v value missed
          | thrown v error =>
              rw [missed] at same
              cases same
          | fault =>
              rw [missed] at same
              cases same

end Routine

end Ijson
