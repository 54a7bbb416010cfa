/-
The queue a path stands for.

A worker that waits on a path, and the types `create` and `delete`, cut off a
slash that `read_method` has left; a client's call and `pub` look the path up as
it is.  With one queue all of them mean that queue unless such a slash is in
front of a name without a pattern that would take it in.
-/

import Ijson.NameLists
import Ijson.MapperReaders

namespace Ijson

open Program PrefixTable

/-! ### Paths -/

/-- A request line. -/
def requestLine (method path version : Bytes) : Bytes := method ++ blank :: path ++ blank :: version

/-- What `read_method` keeps of a path. -/
def keptPath : Bytes → Bytes
  | 47 :: b :: more => b :: more
  | path => path

theorem readMethod_path {method path version : Bytes} (word : blank ∉ method) (unbroken : blank ∉ path) :
    (Http.readMethod (requestLine method path version)).1 = keptPath path := by
  have splits : ∀ {text : Bytes} {rest : Bytes}, blank ∉ text →
      (text ++ blank :: rest).dropWhile (· ≠ blank) = blank :: rest ∧
      (text ++ blank :: rest).takeWhile (· ≠ blank) = text := by
    intro text rest absent
    have passes : ∀ a ∈ text, (decide (a ≠ blank)) = true := by
      intro a member
      exact decide_eq_true fun same => absent (same ▸ member)
    constructor
    · rw [List.dropWhile_append_of_pos passes, List.dropWhile_cons_of_neg (by simp)]
    · rw [List.takeWhile_append_of_pos passes, List.takeWhile_cons_of_neg (by simp), List.append_nil]
  have spelled : requestLine method path version = method ++ blank :: (path ++ blank :: version) := by
    rw [requestLine, List.append_assoc, List.cons_append]
  have present : blank ∈ path ++ blank :: version := by simp
  unfold Http.readMethod
  rw [spelled, (splits word).1]
  simp only [List.drop_succ_cons, List.drop_zero]
  rw [if_pos present, (splits unbroken).2]
  rfl

/-- The path leads to the queue that is named by it less a slash. -/
def Agreeable (path : Bytes) : Prop :=
  path.head? ≠ some 47 ∨ star ∈ path ∧ ∀ a ∈ path.takeWhile (· ≠ star), a = 47

/-- A word is the beginning of itself moved by one letter when it repeats that letter. -/
theorem shifted_word {word whole : Bytes} (inside : word <+: whole) (a : UInt8) :
    word <+: a :: whole ↔ ∀ b ∈ word, b = a := by
  induction word generalizing whole a with
  | nil => simp
  | cons b word ih =>
      cases whole with
      | nil => simp at inside
      | cons d whole =>
          obtain ⟨same, within⟩ := List.cons_prefix_cons.mp inside
          rw [List.cons_prefix_cons, List.forall_mem_cons, ← same]
          constructor
          · rintro ⟨first, rest⟩
            rw [first] at rest ⊢
            exact ⟨rfl, (ih within a).mp rest⟩
          · rintro ⟨first, rest⟩
            rw [first]
            exact ⟨rfl, (ih within a).mpr rest⟩

/-- With one queue in the table, a path is found exactly if it is agreeable. -/
theorem lookup_agreeable {path : Bytes} (value : Nat) :
    lookup (Function.update PrefixTable.empty (routingKey (unslashed path)) (some value)) path ≠ none ↔
      Agreeable path := by
  have single : ∀ key : Key UInt8,
      Function.update (PrefixTable.empty : Table UInt8 Nat) (routingKey (unslashed path)) (some value) key = none ↔
        key ≠ routingKey (unslashed path) := by
    intro key
    by_cases same : key = routingKey (unslashed path)
    · rw [same, Function.update_self]
      simp
    · rw [Function.update_of_ne same]
      simp [PrefixTable.empty, same]
  have reversed : lookup (Function.update PrefixTable.empty (routingKey (unslashed path)) (some value)) path = none ↔
      Key.exact path ≠ routingKey (unslashed path) ∧
        ∀ stem, stem <+: path → Key.pattern stem ≠ routingKey (unslashed path) := by
    rw [lookup_eq_none_iff, single]
    simp only [single]
  rw [Ne, reversed, Agreeable]
  by_cases slashed : path.head? = some 47
  · obtain ⟨rest, rfl⟩ : ∃ rest, path = 47 :: rest := by
      cases path with
      | nil => cases slashed
      | cons a rest =>
          rw [List.head?_cons, Option.some.injEq] at slashed
          rw [slashed]
          exact ⟨rest, rfl⟩
    have cut : unslashed (47 :: rest) = rest := rfl
    rw [cut]
    have slashIsNot : (47 : UInt8) ≠ star := by decide
    have starred : star ∈ (47 :: rest : Bytes) ↔ star ∈ rest := by simp [slashIsNot.symm]
    by_cases isPattern : star ∈ rest
    · have inside := stem_initial rest
      have before : (47 :: rest : Bytes).takeWhile (· ≠ star) = 47 :: rest.takeWhile (· ≠ star) :=
        List.takeWhile_cons_of_pos (by simpa using slashIsNot)
      rw [routingKey_of_star isPattern, before]
      have taken := shifted_word inside 47
      constructor
      · intro found
        refine Or.inr ⟨starred.mpr isPattern, ?_⟩
        have isPrefix : rest.takeWhile (· ≠ star) <+: 47 :: rest := by
          by_contra absent
          exact found ⟨nofun, fun stem isPrefix same => absent (Key.pattern.inj same ▸ isPrefix)⟩
        exact List.forall_mem_cons.mpr ⟨rfl, taken.mp isPrefix⟩
      · rintro (unslashed | ⟨-, slashes⟩)
        · exact absurd slashed unslashed
        · intro absent
          exact absent.2 _ (taken.mpr (List.forall_mem_cons.mp slashes).2) rfl
    · rw [routingKey_of_exact isPattern]
      constructor
      · intro found
        refine absurd ⟨?_, nofun⟩ found
        intro same
        have lengths := congrArg List.length (Key.exact.inj same)
        simp at lengths
      · rintro (unslashed | ⟨present, -⟩)
        · exact absurd slashed unslashed
        · exact absurd (starred.mp present) isPattern
  · have cut : unslashed path = path := by
      unfold unslashed
      split
      · exact absurd rfl slashed
      · rfl
    rw [cut]
    refine iff_of_true ?_ (Or.inl slashed)
    intro absent
    by_cases isPattern : star ∈ path
    · exact absent.2 _ (stem_initial path) (routingKey_of_star isPattern).symm
    · exact absent.1 (routingKey_of_exact isPattern).symm

/-! ### The first queue -/

namespace Registry

variable {registry before after : Registry} {nodes : Finset Bytes} {table : Table UInt8 Nat}

theorem SameNames.liveAt (same : SameNames before after) {i : Nat} {line : QueueLine}
    (live : before.LiveAt i line) : ∃ other, after.LiveAt i other ∧ other.name = line.name := by
  have name := same.slot_name i
  rw [LiveAt] at live
  rw [live] at name
  cases slot : after.queueList[i]? with
  | none =>
      rw [slot] at name
      cases name
  | some found =>
      rw [slot] at name
      cases found with
      | none => cases name
      | some other => exact ⟨other, slot, Option.some.inj (Option.some.inj name)⟩

theorem SameNames.symm (same : SameNames before after) : SameNames after before :=
  ⟨same.mapper.symm, same.names.symm⟩

theorem SameNames.holds (same : SameNames before after) (holds : before.Holds nodes table) :
    after.Holds nodes table := by
  refine ⟨same.mapper ▸ holds.mapper, fun key value => ?_, same.length_eq ▸ holds.numbered⟩
  rw [holds.entries]
  constructor
  · rintro ⟨i, line, number, live, routed⟩
    obtain ⟨other, otherLive, name⟩ := same.liveAt live
    exact ⟨i, other, number, otherLive, name ▸ routed⟩
  · rintro ⟨i, line, number, live, routed⟩
    obtain ⟨other, otherLive, name⟩ := same.symm.liveAt live
    exact ⟨i, other, number, otherLive, name ▸ routed⟩

/-- Only slot `i` has a queue, and it is named `name`. -/
structure Only (registry : Registry) (i : Nat) (name : Bytes) : Prop where
  holds : ∃ nodes, registry.Holds nodes (Function.update PrefixTable.empty (routingKey name) (some (i + 1)))
  live : ∃ line, registry.LiveAt i line ∧ line.name = name
  single : ∀ k line, registry.LiveAt k line → k = i

theorem SameNames.only (same : SameNames before after) {i : Nat} {name : Bytes} (only : before.Only i name) :
    after.Only i name := by
  obtain ⟨nodes, holds⟩ := only.holds
  obtain ⟨line, live, named⟩ := only.live
  obtain ⟨other, otherLive, same_name⟩ := same.liveAt live
  refine ⟨⟨nodes, same.holds holds⟩, ⟨other, otherLive, same_name.trans named⟩, fun k line live => ?_⟩
  obtain ⟨old, oldLive, -⟩ := same.symm.liveAt live
  exact only.single k old oldLive

theorem getQueue_first {threads : Nat} {name : Bytes} {slot : Option Nat} (holds : registry.Holds nodes table)
    (empty : ∀ i line, ¬ registry.LiveAt i line)
    (returned : registry.getQueue threads name true = .returned after slot) :
    ∃ i, slot = some i ∧ after.Only i name := by
  have noKey : table = PrefixTable.empty := by
    funext key
    by_contra present
    obtain ⟨value, defined⟩ := Option.ne_none_iff_exists'.mp present
    obtain ⟨line, -, live⟩ := holds.value_live defined
    exact empty _ line live
  rw [noKey] at holds
  have absent : lookup (PrefixTable.empty : Table UInt8 Nat) name = none :=
    (lookup_eq_none_iff _ _).mpr ⟨rfl, fun _ _ => rfl⟩
  have room : registry.freeSlot ≠ none ∨ registry.queueList.length < 65535 := by
    cases slots : registry.queueList with
    | nil => exact Or.inr (by decide)
    | cons first rest =>
        refine Or.inl fun full => freeSlot_none ?_ full 0 ?_
        · exact Nat.le_trans holds.numbered (by decide)
        · rw [slots, List.getElem?_cons_zero]
          cases first with
          | none => rfl
          | some line => exact absurd (by rw [LiveAt, slots, List.getElem?_cons_zero]) (empty 0 line)
  rw [getQueue_create threads holds absent] at returned
  have adds : ∀ n mapper, n ≠ 0 → registry.mapper.add name n = .returned mapper () →
      mapper.Holds (nodes ∪ stems [] (Mapper.readPart name))
        (Function.update PrefixTable.empty (routingKey name) (some n)) := by
    intro n mapper nonzero added
    have addedHolds := Mapper.add_holds holds.mapper added
    rw [stored_of_ne_zero nonzero] at addedHolds
    exact addedHolds
  have returns : ∃ position slots n mapper,
      registry.place (QueueLine.new threads name) = some (slots, position, n) ∧
        registry.mapper.add name n = .returned mapper () := by
    unfold createQueue at returned
    cases placed : registry.place (QueueLine.new threads name) with
    | none =>
        rw [placed] at returned
        cases returned
    | some place =>
        obtain ⟨slots, position, n⟩ := place
        rw [placed] at returned
        simp only at returned
        cases added : registry.mapper.add name n with
        | returned mapper value => exact ⟨position, slots, n, mapper, rfl, added⟩
        | thrown mapper error =>
            rw [added] at returned
            cases returned
        | fault =>
            rw [added] at returned
            cases returned
  obtain ⟨created, position, createdEq, createdHolds, live, others, -⟩ :=
    createQueue_adds threads holds absent room adds returns
  rw [createdEq] at returned
  cases returned
  refine ⟨position, rfl, ⟨_, createdHolds⟩, ⟨_, live, rfl⟩, fun k line lineLive => ?_⟩
  by_contra other
  exact empty k line ((others k other line).mp lineLive)

end Registry

/-! ### The requests -/

/-- A request is about queue `i` only, and it is not refused as unknown. -/
structure Routed (moments : List (Action × Server)) (i : Nat) : Prop where
  known : ∀ moment ∈ moments, ∀ c response, moment.1 = .respond c response →
    response.status ≠ "404 Not Found"
  own : ∀ moment ∈ moments, ∀ k, moment.1.claims = some k ∨ moment.1.publishes = some k → k = i

/-- The queue in which a call is handed to a worker, refused for its id or put behind the others. -/
def Action.callIn : Action → Option Nat
  | .handAsync _ i _ _ _ => some i
  | .handNoid _ i _ _ _ => some i
  | .handId _ i _ _ _ _ => some i
  | .undoNoId _ i _ _ => some i
  | .undoCollision _ i _ _ _ => some i
  | .enqueueSync _ i _ => some i
  | .enqueueAsync _ i _ => some i
  | _ => none

/-- A call is settled in queue `i`, or it is told that nobody is there. -/
def Serves (i : Nat) (moment : Action × Server) : Prop :=
  moment.1.callIn = some i ∨ ∃ c line, moment.1 = .respond c ⟨"204 No Content", [], .code 1⟩ ∧
    moment.2.line i = some line ∧ line.workers = []

/-- A call goes to queue `i`. -/
structure CallsIn (routine : Routine Unit) (s : Server) (i : Nat) : Prop where
  routed : Routed (routine.run Action.apply s).1 i
  served : ∀ t, routine.outcome Action.apply s = .returned t () → ∃ moment ∈ (routine.run Action.apply s).1, Serves i moment

/-- A message is published to queue `i`, for the workers it has. -/
structure Publishes (routine : Routine Unit) (s : Server) (i : Nat) : Prop where
  routed : Routed (routine.run Action.apply s).1 i
  made : ∃ moment ∈ (routine.run Action.apply s).1, moment.1.publishes = some i

/-- Queue `i` is taken out of the registry. -/
def Removes (moments : List (Action × Server)) (i : Nat) : Prop :=
  ∃ name s line after, (Action.unhook name, s) ∈ moments ∧ s.line i = some line ∧
    s.registry.removeQueue name = some (after, some line) ∧ after.queueList[i]? = some none

/-- A path is looked up as queue `i`, and a client's call, `pub` and `delete` on it act on that queue. -/
structure Agree (env : Env) (path : Bytes) (i : Nat) (s : Server) : Prop where
  found : s.registry.getQueue s.threads path false = .returned s.registry (some i)
  call : ∀ c, CallsIn (Routine.clientRequest env path c) s i
  pub : ∀ c, Publishes (Routine.pub path c) s i
  delete : ∀ c, Removes ((Routine.removeQueue c path).run Action.apply s).1 i

/-- A worker has come to wait in queue `i` through a path, or the queue was created. -/
inductive Opens (path : Bytes) (s : Server) : Server → Nat → Prop where
  | waits {env : Env} {c : ConnId} {t : Server} {i : Nat}
      (returned : ((Routine.addWorker env path c).run Action.apply s).2 = .returned t ())
      (untaken : ∀ moment ∈ ((Routine.addWorker env path c).run Action.apply s).1, moment.1.takes = false)
      (here : registered ((Routine.addWorker env path c).run Action.apply s).1 = [i]) : Opens path s t i
  | created {c : ConnId} {t : Server} {i : Nat} {line : QueueLine}
      (returned : ((Routine.createQueue c path).run Action.apply s).2 = .returned t ())
      (live : t.line i = some line) : Opens path s t i

/-- The action is no refusal of an unknown queue and about no other queue than `i`. -/
def Action.Within (i : Nat) (action : Action) : Prop :=
  (∀ c response, action = .respond c response → response.status ≠ "404 Not Found") ∧
    ∀ k, action.claims = some k ∨ action.publishes = some k → k = i

theorem Action.within_claims {action : Action} {i : Nat} (claims : action.claims = some i) : action.Within i := by
  constructor
  · intro c response same
    rw [same] at claims
    cases claims
  · rintro k (same | publishes)
    · rw [claims] at same
      exact (Option.some.inj same).symm
    · cases action with
      | newDirect | publishClaim | publishPush => cases claims
      | _ => cases publishes

theorem Action.within_publishes {action : Action} {i : Nat} (publishes : action.publishes = some i) :
    action.Within i := by
  constructor
  · intro c response same
    rw [same] at publishes
    cases publishes
  · rintro k (claims | same)
    · cases action with
      | newDirect | publishClaim | publishPush => cases claims
      | _ => cases publishes
    · rw [publishes] at same
      exact (Option.some.inj same).symm

theorem Action.within_answer {c : ConnId} {response : Response} (known : response.status ≠ "404 Not Found")
    (i : Nat) : (Action.respond c response).Within i := by
  constructor
  · intro d other same
    cases same
    exact known
  · rintro k (claims | publishes)
    · cases claims
    · cases publishes

theorem routed_of_wp {α : Type} {routine : Routine α} {i : Nat} {s : Server}
    (walk : routine.wp Action.apply (fun action _ => action.Within i) (fun _ _ => True) (fun _ _ => True) s) :
    Routed (routine.run Action.apply s).1 i where
  known := fun _ member => (moment_meets walk member).1
  own := fun _ member => (moment_meets walk member).2

section Requests

variable {env : Env} {path : Bytes} {s : Server} {i : Nat}

theorem clientRequest_routed (c : ConnId)
    (found : s.registry.getQueue s.threads path false = .returned s.registry (some i)) :
    Routed ((Routine.clientRequest env path c).run Action.apply s).1 i := by
  apply routed_of_wp
  rw [Routine.clientRequest]
  refine wp_perform_bind ⟨fun d response responds => (by cases responds), by rintro k (claims | publishes) <;> contradiction⟩ ?_
  simp only [Action.apply, Ends_returned]
  rw [wp_bind, wp_get]
  simp only [found]
  refine Routine.requested_heeds (fun action claims _ _ => Action.within_claims claims)
    (fun response answered _ => Action.within_answer ?_ i) path _ _ _
  rcases answered with accepted | empty
  · rw [accepted]
    decide
  · rw [empty]
    decide

theorem handSync_serves (c : ConnId) (j p : Nat) (name : Bytes) :
    Performs Action.apply (Serves i) (Routine.handSync env c i j p name) := by
  have hands : ∀ {action : Action}, action.callIn = some i → Performs Action.apply (Serves i) (perform action) :=
    fun here => performs_perform fun _ => Or.inl here
  rw [Routine.handSync]
  refine performs_look fun t => ?_
  split
  · exact performs_fault
  · split
    · exact hands rfl
    · extract_lets random
      split
      · exact hands rfl
      · split
        · exact hands rfl
        · exact hands rfl

theorem clientRequest_serves (c : ConnId)
    (found : s.registry.getQueue s.threads path false = .returned s.registry (some i)) {t : Server}
    (returned : (Routine.clientRequest env path c).outcome Action.apply s = .returned t ()) :
    ∃ moment ∈ ((Routine.clientRequest env path c).run Action.apply s).1, Serves i moment := by
  have hands : ∀ {action : Action}, action.callIn = some i → Performs Action.apply (Serves i) (perform action) :=
    fun here => performs_perform fun _ => Or.inl here
  have counted : Comes Action.apply (Routine.clientRequest env path c) s
      [(.count fun stats => { stats with call := stats.call + 1 }, s)] _ _ :=
    Comes.perform rfl (Comes.look (comes_here _ _))
  rw [counted.outcome_eq] at returned
  rw [counted.moments_eq]
  simp only [found] at returned ⊢
  refine Exists.imp (fun moment both => ⟨List.mem_append_right _ both.1, both.2⟩)
    (performs_behind _ (fun _ => performs_behind _ fun place => ?_) _ t () returned)
  cases place with
  | some place =>
      simp only
      split
      · exact (hands rfl).bind _
      · exact handSync_serves c _ _ path
  | none =>
      refine performs_behind _ fun option => ?_
      -- the answer of a queue without workers is about the state it is given in
      intro u after value ends
      rw [look_returned] at ends
      cases live : u.line i with
      | none =>
          rw [live] at ends
          cases ends
      | some line =>
          simp only [run_get_bind, live] at ends ⊢
          split at ends
          · rename_i alone
            rw [if_pos alone, moments_perform]
            simp only [Bool.and_eq_true, decide_eq_true_eq, List.isEmpty_iff] at alone
            exact ⟨_, List.mem_singleton_self _, Or.inr ⟨c, line, rfl, live, alone.2⟩⟩
          · rename_i busy
            rw [if_neg busy]
            split at ends
            · rename_i quiet
              rw [if_pos quiet]
              exact (hands rfl).bind _ u after value ends
            · rename_i waits
              rw [if_neg waits]
              exact hands rfl u after value ends

theorem clientRequest_calls (c : ConnId)
    (found : s.registry.getQueue s.threads path false = .returned s.registry (some i)) :
    CallsIn (Routine.clientRequest env path c) s i where
  routed := clientRequest_routed c found
  served := fun _ returned => clientRequest_serves c found returned

theorem pub_publishes (c : ConnId) {line : QueueLine} (live : s.line i = some line)
    (found : s.registry.getQueue s.threads path false = .returned s.registry (some i)) :
    Publishes (Routine.pub path c) s i where
  routed := by
    apply routed_of_wp
    rw [Routine.pub, wp_bind, wp_get]
    simp only [found]
    exact Routine.published_heeds (fun action publishes _ => Action.within_publishes publishes)
      (fun _ => Action.within_answer (by decide) i)
      (fun d _ => ⟨fun d response responds => (by cases responds), by rintro k (claims | publishes) <;> contradiction⟩) path _ _ _ _
  made := by
    refine ⟨(.newDirect i (Routine.published path (s.conns c).http.body) line.name, s), ?_, rfl⟩
    rw [Routine.pub, run_get_bind]
    simp only [found, live]
    rw [moments_bind, moments_perform]
    exact List.mem_append_left _ (List.mem_singleton_self _)

theorem removeQueue_removes (c : ConnId) (named : path ≠ [])
    (only : s.registry.Only i (unslashed path)) :
    Removes ((Routine.removeQueue c path).run Action.apply s).1 i := by
  obtain ⟨nodes, holds⟩ := only.holds
  obtain ⟨line, live, name⟩ := only.live
  obtain ⟨after, removed, removedEq, -, -, -, freed, -⟩ := Registry.removeQueue_spec holds (unslashed path)
  obtain ⟨same, isNull⟩ := freed i line live (by rw [name])
  have here : s.line i = some line := by
    rw [Server.line, show s.registry.queueList[i]? = some (some line) from live]
    rfl
  refine ⟨unslashed path, s, line, after, ?_, here, same ▸ removedEq, isNull⟩
  have nonempty : path.isEmpty = false := List.isEmpty_eq_false_iff.mpr named
  unfold Routine.removeQueue Routine.withQueueName
  rw [if_neg (by rw [nonempty]; decide), moments_bind]
  refine List.mem_append_left _ ?_
  change (Action.unhook (unslashed path), s) ∈ ((Routine.deleteQueue (unslashed path)).run Action.apply s).1
  rw [Routine.deleteQueue, moments_bind, moments_perform]
  exact List.mem_append_left _ (List.mem_singleton_self _)

/-- With one queue, requests on a path act on it exactly if the path is agreeable. -/
theorem agree_iff (env : Env) (named : path ≠ []) (only : s.registry.Only i (unslashed path)) :
    Agree env path i s ↔ Agreeable path := by
  obtain ⟨nodes, holds⟩ := only.holds
  obtain ⟨line, live, -⟩ := only.live
  rw [← lookup_agreeable (i + 1)]
  constructor
  · intro agree absent
    have missing := agree.found.symm.trans (Registry.getQueue_missing s.threads holds absent)
    cases missing
  · intro present
    obtain ⟨value, found⟩ := Option.ne_none_iff_exists'.mp present
    have number : value = i + 1 := by
      obtain ⟨owner, ownerEq⟩ := lookup_mem found
      by_cases same : owner = routingKey (unslashed path)
      · rw [same, Function.update_self] at ownerEq
        exact (Option.some.inj ownerEq).symm
      · rw [Function.update_of_ne same] at ownerEq
        cases ownerEq
    have queue := Registry.getQueue_found s.threads holds found false
    rw [number, Nat.add_sub_cancel] at queue
    have here : s.line i = some line := by
      rw [Server.line, show s.registry.queueList[i]? = some (some line) from live]
      rfl
    exact
      { found := queue
        call := fun c => clientRequest_calls c queue
        pub := fun c => pub_publishes c here queue
        delete := fun c => removeQueue_removes c named only }

/-- The queue that is entered through a path is named by it less a slash. -/
theorem Opens.only {nodes : Finset Bytes} {table : Table UInt8 Nat} {t : Server}
    (holds : s.registry.Holds nodes table) (empty : ∀ i, s.line i = none) (named : path ≠ [])
    (unbroken : ∀ a ∈ path, separator a = false) (opens : Opens path s t i) :
    t.registry.Only i (unslashed path) := by
  have nothing : ∀ i line, ¬ s.registry.LiveAt i line := by
    intro i line live
    have absent := empty i
    rw [Server.line, show s.registry.queueList[i]? = some (some line) from live] at absent
    cases absent
  have alive : ∀ {registry : Registry} {k : Nat}, registry.Only k (unslashed path) →
      registry.SameNames t.registry → t.line i ≠ Option.none → t.registry.Only i (unslashed path) := by
    intro registry k only same live
    have onlyNow := same.only only
    obtain ⟨line, here⟩ := Option.ne_none_iff_exists'.mp live
    have liveAt : t.registry.LiveAt i line := by
      rw [Server.line, Option.join_eq_some_iff] at here
      exact here
    rw [onlyNow.single i line liveAt]
    exact onlyNow
  cases opens with
  | @waits env c t i returned untaken here =>
      have entering := addWorker_enters returned untaken
      have pieces : Routine.pieces path [] = [path] := by
        have joined : ∀ (rest piece : Bytes), (∀ a ∈ rest, separator a = false) →
            Routine.pieces rest piece = if (piece ++ rest).isEmpty then [] else [piece ++ rest] := by
          intro rest
          induction rest with
          | nil =>
              intro piece _
              rw [Routine.pieces, List.append_nil]
          | cons a rest ih =>
              intro piece plain
              have first := plain a List.mem_cons_self
              rw [Routine.pieces, if_neg (by simpa [separator] using first),
                ih _ fun b member => plain b (List.mem_cons_of_mem a member)]
              simp
        rw [joined path [] unbroken, List.nil_append,
          if_neg (by simpa using named)]
      rw [pieces] at entering
      obtain ⟨slots, registry, looked, same⟩ := entering.routed
      rw [List.map_cons, List.map_nil, lookUps_cons] at looked
      obtain ⟨j, after, rest, found, ended, -⟩ := looked
      cases ended
      obtain ⟨k, -, only⟩ := Registry.getQueue_first holds nothing found
      refine alive only same fun absent => ?_
      have counted := entering.once i (by rw [here]; exact List.mem_singleton_self i) List.not_mem_nil
      have noEntries : t.workersIn i (s.conns c).nloop = [] := by
        rw [Server.workersIn, Registry.workersIn, ← Server.queue_eq, Server.queue, absent]
        rfl
      rw [noEntries] at counted
      cases counted
  | @created c t i line returned live =>
      have nonempty : path.isEmpty = false := List.isEmpty_eq_false_iff.mpr named
      have creates : ((Routine.createQueue c path).run Action.apply s).2 =
          (perform (.create (unslashed path)) >>= fun _ =>
            perform (.respond c ⟨"200 OK", [], .code 1⟩) : Routine Unit).outcome Action.apply s := by
        unfold Routine.createQueue Routine.withQueueName
        rw [if_neg (by rw [nonempty]; decide)]
        rfl
      rw [creates, outcome_bind, outcome_perform] at returned
      have wrote := Server.apply_writes s (.create (unslashed path))
      cases applied : (Action.create (unslashed path)).apply s with
      | thrown u error =>
          rw [applied] at returned
          cases returned
      | fault =>
          rw [applied] at returned
          cases returned
      | returned u value =>
          rw [applied] at returned wrote
          simp only [Outcome.bind, outcome_perform] at returned
          have answered := Server.apply_writes u (.respond c ⟨"200 OK", [], .code 1⟩)
          rw [returned] at answered
          have same : t.registry = u.registry := List.mem_singleton.mp answered
          have member : u.registry ∈ (Action.create (unslashed path)).writes s := wrote
          simp only [Action.apply] at applied
          cases found : s.registry.getQueue s.threads (unslashed path) true with
          | returned after slot =>
              obtain ⟨k, -, only⟩ := Registry.getQueue_first holds nothing found
              simp only [Action.writes, found, List.mem_singleton] at member
              refine alive only ?_ (by rw [live]; exact Option.some_ne_none line)
              rw [same, member]
              exact .refl _
          | thrown after error =>
              rw [found] at applied
              cases applied
          | fault =>
              rw [found] at applied
              cases applied

end Requests

/-- When the only queue was entered through a path, every way of naming it by
that path acts on it if and only if the path is agreeable. -/
theorem paths_agree_iff {method version p : Bytes} {s t : Server} {i : Nat} {nodes : Finset Bytes}
    {table : Table UInt8 Nat} (word : blank ∉ method) (plain : ∀ a ∈ p, separator a = false)
    (accepted : (Http.readMethod (requestLine method p version)).1 ≠ [])
    (holds : s.registry.Holds nodes table) (empty : ∀ k, s.line k = none)
    (opens : Opens (Http.readMethod (requestLine method p version)).1 s t i) :
    (∀ env u other text, blank ∉ other → t.registry.SameNames u.registry →
      Agree env (Http.readMethod (requestLine other p text)).1 i u) ↔ Agreeable (keptPath p) := by
  have unbroken : blank ∉ p := fun member => by
    have separates := plain blank member
    cases separates
  rw [readMethod_path word unbroken] at accepted opens
  have kept : ∀ a ∈ keptPath p, separator a = false := by
    intro a member
    unfold keptPath at member
    split at member
    · exact plain a (List.mem_cons_of_mem 47 member)
    · exact plain a member
  have only := opens.only holds empty accepted kept
  constructor
  · intro whole
    have agree := whole atRest t method version word (.refl _)
    rw [readMethod_path word unbroken] at agree
    exact (agree_iff atRest accepted only).mp agree
  · intro agreeable env u other text spelled same
    rw [readMethod_path spelled unbroken]
    exact (agree_iff env accepted (same.only only)).mpr agreeable

instance (path : Bytes) : Decidable (Agreeable path) := inferInstanceAs (Decidable (_ ∨ _))

/-- A server that has accepted one connection. -/
def firstClient : Server :=
  let s := Server.new 1 false [] 0
  { s with accepted := 1, stats := { s.stats with connect := 1 } }.set 0 (Conn.new 0 ⟨false, false, false⟩)

theorem firstClient_reachable : Reachable anything firstClient :=
  .step (.accept 0 ⟨false, false, false⟩) (.new 1 false [] 0) (by decide) (fun _ _ => trivial) rfl

/-- Creating the queue of a path fills the first slot. -/
def createsFirst (path : Bytes) : Bool :=
  match ((Routine.createQueue 0 path).run Action.apply firstClient).2 with
  | .returned t _ => (t.line 0).isSome
  | _ => false

theorem created_opens {path : Bytes} (ran : createsFirst path = true) :
    ∃ t, Opens path firstClient t 0 := by
  unfold createsFirst at ran
  cases returned : ((Routine.createQueue 0 path).run Action.apply firstClient).2 with
  | returned t value =>
      rw [returned] at ran
      obtain ⟨line, live⟩ := Option.isSome_iff_exists.mp ran
      exact ⟨t, .created returned live⟩
  | thrown t error =>
      rw [returned] at ran
      cases ran
  | fault =>
      rw [returned] at ran
      cases ran

/-- A second connection. -/
def secondClient : Server := firstClient.set 1 (Conn.new 0 ⟨false, false, false⟩)

/-- What a second connection does with the path returns. -/
structure Usable (path : Bytes) (t : Server) : Prop where
  call : ∃ u, (Routine.clientRequest atRest path 1).outcome Action.apply t = .returned u ()
  pub : ∃ u, (Routine.pub path 1).outcome Action.apply t = .returned u ()
  delete : ∃ u, (Routine.removeQueue 1 path).outcome Action.apply t = .returned u ()

/-- A worker comes to wait in the first slot, and the second connection uses the path. -/
def waitsFirst (path : Bytes) : Bool :=
  let run := (Routine.addWorker atRest path 0).run Action.apply secondClient
  match run.2 with
  | .returned t _ => run.1.all (fun moment => !moment.1.takes) && registered run.1 == [0] &&
      ((Routine.clientRequest atRest path 1).outcome Action.apply t).isReturned &&
      ((Routine.pub path 1).outcome Action.apply t).isReturned &&
      ((Routine.removeQueue 1 path).outcome Action.apply t).isReturned
  | _ => false

theorem waiting_opens {path : Bytes} (ran : waitsFirst path = true) :
    ∃ t, Opens path secondClient t 0 ∧ Usable path t := by
  unfold waitsFirst at ran
  cases returned : ((Routine.addWorker atRest path 0).run Action.apply secondClient).2 with
  | returned t value =>
      simp only [returned, Bool.and_eq_true, List.all_eq_true, Bool.not_eq_true', beq_iff_eq] at ran
      obtain ⟨⟨⟨⟨untaken, here⟩, call⟩, pub⟩, delete⟩ := ran
      exact ⟨t, .waits returned untaken here, Outcome.returns_of_isReturned call,
        Outcome.returns_of_isReturned pub, Outcome.returns_of_isReturned delete⟩
  | thrown t error =>
      simp only [returned] at ran
      cases ran
  | fault =>
      simp only [returned] at ran
      cases ran

/-- The path `/jobs/*` on a new server, created or with a waiting worker. -/
theorem paths_agree_iff_jobs :
    (∃ t : Server, ∀ env u other text, blank ∉ other → t.registry.SameNames u.registry →
      Agree env (Http.readMethod (requestLine other (ascii "/jobs/*") text)).1 0 u) ∧
    ∃ t : Server, Usable (ascii "jobs/*") t ∧ ∀ env u other text, blank ∉ other → t.registry.SameNames u.registry →
      Agree env (Http.readMethod (requestLine other (ascii "/jobs/*") text)).1 0 u := by
  have kept : (Http.readMethod (requestLine (ascii "GET") (ascii "/jobs/*") (ascii "HTTP/1.1"))).1 =
      ascii "jobs/*" := by decide
  obtain ⟨t, created⟩ := @created_opens (ascii "jobs/*") (by decide +kernel)
  obtain ⟨u, waits, usable⟩ := @waiting_opens (ascii "jobs/*") (by decide +kernel)
  rw [← kept] at created waits
  exact ⟨⟨t, (paths_agree_iff (by decide) (forall_of_all (by decide)) (by decide) Registry.new_holds (fun _ => rfl)
      created).mpr (by decide)⟩,
    u, usable, (paths_agree_iff (by decide) (forall_of_all (by decide)) (by decide) Registry.new_holds (fun _ => rfl)
      waits).mpr (by decide)⟩

/-- After `create` on `//a`, a call of `//a` is unknown. -/
theorem doubled_slash_unknown : ¬ ∀ method version p s t i, blank ∉ method →
    (∀ a ∈ p, separator a = false) → (Http.readMethod (requestLine method p version)).1 ≠ [] →
    Met anything s → (∀ k, s.line k = none) →
    Opens (Http.readMethod (requestLine method p version)).1 s t i →
    Agree atRest (Http.readMethod (requestLine method p version)).1 i t := by
  intro always
  have created : createsFirst (ascii "/a") = true := by decide +kernel
  have kept : (Http.readMethod (requestLine (ascii "GET") (ascii "//a") (ascii "HTTP/1.1"))).1 =
      ascii "/a" := by decide
  obtain ⟨t, opens⟩ := created_opens created
  have only := opens.only Registry.new_holds (fun _ => rfl) (by decide) (forall_of_all (by decide))
  rw [← kept] at opens
  have agree := always (ascii "GET") (ascii "HTTP/1.1") (ascii "//a") firstClient t 0
    (by decide) (forall_of_all (by decide)) (by decide) (.between firstClient_reachable) (fun _ => rfl) opens
  rw [kept] at agree
  exact absurd ((agree_iff atRest (by decide) only).mp agree) (by decide)

end Ijson
