/-
`Mapper` against the history of its calls.

A name counts as live when it was added and neither deleted nor added again
since.  After any history of calls that fits into 65535 nodes, `find` answers
with the exact live name, else with the longest live pattern.
-/

import Mathlib.Data.Finset.Union
import Ijson.MapperRouting

namespace Ijson

open PrefixTable

/-- Names consist of the bytes 32..127. -/
def ValidKey (key : Bytes) : Prop := ∀ a ∈ key, 32 ≤ a.toNat ∧ a.toNat < 128

instance (key : Bytes) : Decidable (ValidKey key) :=
  decidable_of_iff (key.all fun a => decide (32 ≤ a.toNat ∧ a.toNat < 128)) (by
    simp only [ValidKey, List.all_eq_true, decide_eq_true_eq])

inductive MapperCall where
  | add (name : Bytes) (value : Nat)
  | del (name : Bytes)

def MapperCall.name : MapperCall → Bytes
  | .add name _ => name
  | .del name => name

/-- Values are non-zero `u16`. -/
def MapperCall.Valid : MapperCall → Prop
  | .add name value => ValidKey name ∧ 0 < value ∧ value < 65536
  | .del name => ValidKey name

def Mapper.call (mapper : Mapper) : MapperCall → Option Mapper
  | .add name value =>
      match mapper.add name value with
      | .returned mapper _ => some mapper
      | _ => none
  | .del name => (mapper.del name).map Prod.fst

def Mapper.calls (mapper : Mapper) : List MapperCall → Option Mapper
  | [] => some mapper
  | call :: rest => (mapper.call call).bind fun mapper => mapper.calls rest

/-- The stems of all added names: the nodes of the trie. -/
def trieNodes : List MapperCall → Finset Bytes
  | [] => {[]}
  | .add name _ :: rest => stems [] name ∪ trieNodes rest
  | .del _ :: rest => trieNodes rest

/-- The value last added for the key and not deleted since. -/
def Live (history : List MapperCall) (key : Key UInt8) (value : Nat) : Prop :=
  ∃ before name after, history = before ++ .add name value :: after ∧
    routingKey name = key ∧ ∀ call ∈ after, routingKey call.name ≠ key

/-- The answer `find` owes for `q`: the exact live name, else the live pattern
with the longest prefix of `q`, else zero. -/
structure FindAnswer (history : List MapperCall) (q : Bytes) (result : Nat) : Prop where
  exact : ∀ value, Live history (.exact q) value → result = value
  pattern : (∀ value, ¬ Live history (.exact q) value) →
    ∀ stem value, stem <+: q → Live history (.pattern stem) value →
      (∀ other otherValue, other <+: q → Live history (.pattern other) otherValue →
        other.length ≤ stem.length) → result = value
  missing : (∀ value, ¬ Live history (.exact q) value) →
    (∀ stem value, stem <+: q → ¬ Live history (.pattern stem) value) → result = 0

/-- The answer `del` owes: the live value of the name, else zero. -/
structure DelAnswer (history : List MapperCall) (name : Bytes) (result : Nat) : Prop where
  live : ∀ value, Live history (routingKey name) value → result = value
  missing : (∀ value, ¬ Live history (routingKey name) value) → result = 0

/-! ### The table of a history -/

def updateTable (table : Table UInt8 Nat) : MapperCall → Table UInt8 Nat
  | .add name value => Function.update table (routingKey name) (some value)
  | .del name => Function.update table (routingKey name) none

def historyTable (history : List MapperCall) : Table UInt8 Nat :=
  history.foldl updateTable PrefixTable.empty

theorem historyTable_append (history : List MapperCall) (call : MapperCall) :
    historyTable (history ++ [call]) = updateTable (historyTable history) call := by
  simp only [historyTable, List.foldl_append, List.foldl_cons, List.foldl_nil]

theorem updateTable_of_ne (table : Table UInt8 Nat) {call : MapperCall} {key : Key UInt8}
    (different : routingKey call.name ≠ key) : updateTable table call key = table key := by
  cases call with
  | add name value => exact Function.update_of_ne (Ne.symm different) _ _
  | del name => exact Function.update_of_ne (Ne.symm different) _ _

theorem live_append_of_ne {history : List MapperCall} {call : MapperCall} {key : Key UInt8}
    (different : routingKey call.name ≠ key) (value : Nat) :
    Live (history ++ [call]) key value ↔ Live history key value := by
  constructor
  · rintro ⟨before, name, after, historyEq, keyEq, untouched⟩
    rcases List.eq_nil_or_concat after with afterNil | ⟨front, last, afterEq⟩
    · subst afterNil
      have lastEq := (List.append_inj' historyEq rfl).2
      rw [List.cons.injEq] at lastEq
      rw [lastEq.1] at different
      exact absurd keyEq different
    · rw [List.concat_eq_append] at afterEq
      subst afterEq
      rw [← List.cons_append, ← List.append_assoc] at historyEq
      exact ⟨before, name, front, (List.append_inj' historyEq rfl).1, keyEq,
        fun call member => untouched call (List.mem_append_left _ member)⟩
  · rintro ⟨before, name, after, historyEq, keyEq, untouched⟩
    refine ⟨before, name, after ++ [call], by simp [historyEq], keyEq, ?_⟩
    intro other member
    rcases List.mem_append.mp member with old | new
    · exact untouched other old
    · rw [List.mem_singleton.mp new]
      exact different

theorem live_append_of_eq {history : List MapperCall} {call : MapperCall} {key : Key UInt8}
    (same : routingKey call.name = key) (value : Nat) :
    Live (history ++ [call]) key value ↔ ∃ name, call = .add name value := by
  constructor
  · rintro ⟨before, name, after, historyEq, keyEq, untouched⟩
    rcases List.eq_nil_or_concat after with afterNil | ⟨front, last, afterEq⟩
    · subst afterNil
      have lastEq := (List.append_inj' historyEq rfl).2
      exact ⟨name, (List.cons.inj lastEq).1⟩
    · rw [List.concat_eq_append] at afterEq
      subst afterEq
      rw [← List.cons_append, ← List.append_assoc] at historyEq
      have lastEq := (List.cons.inj (List.append_inj' historyEq rfl).2).1
      exact absurd same (lastEq ▸ untouched last (by simp))
  · rintro ⟨name, callEq⟩
    subst callEq
    exact ⟨history, name, [], rfl, same, by simp⟩

theorem historyTable_eq_some_iff (history : List MapperCall) (key : Key UInt8) (value : Nat) :
    historyTable history key = some value ↔ Live history key value := by
  induction history using List.reverseRecOn with
  | nil =>
      constructor
      · intro impossible
        cases impossible
      · rintro ⟨before, name, after, historyEq, _⟩
        simp at historyEq
  | append_singleton history call ih =>
      rw [historyTable_append]
      by_cases same : routingKey call.name = key
      · rw [live_append_of_eq same]
        subst same
        cases call with
        | add name added =>
            simp only [updateTable, MapperCall.name, Function.update_self, Option.some.injEq,
              MapperCall.add.injEq, exists_eq_left']
        | del name =>
            simp [updateTable, MapperCall.name]
      · rw [updateTable_of_ne _ same, live_append_of_ne same]
        exact ih

theorem historyTable_eq_none_iff (history : List MapperCall) (key : Key UInt8) :
    historyTable history key = none ↔ ∀ value, ¬ Live history key value := by
  rw [Option.eq_none_iff_forall_ne_some]
  exact forall_congr' fun value => not_congr (historyTable_eq_some_iff history key value)

/-! ### Every history -/

theorem childIndex_ne_none {a : UInt8} (inRange : 32 ≤ a.toNat ∧ a.toNat < 128) :
    childIndex a ≠ none := by
  rw [childIndex, dif_pos inRange]
  exact Option.some_ne_none _

theorem stems_subset_trieNodes (call : MapperCall) (rest : List MapperCall) :
    trieNodes rest ⊆ trieNodes (call :: rest) := by
  cases call with
  | add name value => exact Finset.subset_union_right
  | del name => exact Finset.Subset.refl _

/-- One valid call from a mapper that holds a table. -/
theorem Mapper.call_holds {mapper : Mapper} {nodes : Finset Bytes} {table : Table UInt8 Nat}
    (holds : mapper.Holds nodes table) (call : MapperCall) (valid : call.Valid)
    (rest : List MapperCall) (bounded : (nodes ∪ trieNodes (call :: rest)).card ≤ 65535) :
    ∃ after afterNodes, mapper.call call = some after ∧
      after.Holds afterNodes (updateTable table call) ∧
      afterNodes ∪ trieNodes rest ⊆ nodes ∪ trieNodes (call :: rest) := by
  cases call with
  | add name value =>
      have nameValid : ∀ a ∈ name, childIndex a ≠ none :=
        fun a member => childIndex_ne_none (valid.1 a member)
      have fits : (nodes ∪ stems [] name).card ≤ 65535 :=
        le_trans (Finset.card_le_card (Finset.union_subset_union_right
          Finset.subset_union_left)) bounded
      obtain ⟨added, addedEq, addedHolds⟩ := (mapper.add_spec holds name value nameValid).1 fits
      rw [stored_of_ne_zero (Nat.pos_iff_ne_zero.mp valid.2.1)] at addedHolds
      refine ⟨added, _, by rw [Mapper.call, addedEq], addedHolds, ?_⟩
      rw [trieNodes, Finset.union_assoc]
  | del name =>
      obtain ⟨after, afterEq, afterHolds⟩ := mapper.del_spec holds name
      exact ⟨after, nodes, by rw [Mapper.call, afterEq]; rfl, afterHolds, Finset.Subset.refl _⟩

theorem Mapper.calls_holds {mapper : Mapper} {nodes : Finset Bytes} {table : Table UInt8 Nat}
    (holds : mapper.Holds nodes table) (history : List MapperCall)
    (valid : ∀ call ∈ history, call.Valid)
    (bounded : (nodes ∪ trieNodes history).card ≤ 65535) :
    ∃ after afterNodes, mapper.calls history = some after ∧
      after.Holds afterNodes (history.foldl updateTable table) := by
  induction history generalizing mapper nodes table with
  | nil => exact ⟨mapper, nodes, rfl, holds⟩
  | cons call rest ih =>
      obtain ⟨middle, middleNodes, middleEq, middleHolds, subset⟩ :=
        mapper.call_holds holds call (valid call List.mem_cons_self) rest bounded
      obtain ⟨after, afterNodes, afterEq, afterHolds⟩ :=
        ih middleHolds (fun other member => valid other (List.mem_cons_of_mem call member))
          (le_trans (Finset.card_le_card subset) bounded)
      refine ⟨after, afterNodes, ?_, afterHolds⟩
      rw [Mapper.calls, middleEq, Option.bind_some, afterEq]

theorem findAnswer_lookup (history : List MapperCall) (q : Bytes) :
    FindAnswer history q ((lookup (historyTable history) q).getD 0) := by
  refine { exact := ?_, pattern := ?_, missing := ?_ }
  · intro value live
    rw [lookup_exact _ q value ((historyTable_eq_some_iff history _ value).mpr live)]
    rfl
  · intro noExact stem value isPrefix live maximal
    rw [lookup_pattern _ q stem value ((historyTable_eq_none_iff history _).mpr noExact) isPrefix
      ((historyTable_eq_some_iff history _ value).mpr live)]
    · rfl
    · intro other otherPrefix present
      obtain ⟨otherValue, otherEq⟩ := Option.ne_none_iff_exists'.mp present
      exact maximal other otherValue otherPrefix
        ((historyTable_eq_some_iff history _ otherValue).mp otherEq)
  · intro noExact noPattern
    have absent : lookup (historyTable history) q = none := by
      rw [lookup_eq_none_iff]
      exact ⟨(historyTable_eq_none_iff history _).mpr noExact, fun stem isPrefix =>
        (historyTable_eq_none_iff history _).mpr fun value => noPattern stem value isPrefix⟩
    rw [absent]
    rfl

theorem Mapper.find_answer {mapper : Mapper} {nodes : Finset Bytes} {history : List MapperCall}
    (holds : mapper.Holds nodes (historyTable history)) (q : Bytes) :
    ∃ result, mapper.find q = some result ∧ FindAnswer history q result :=
  ⟨_, mapper.find_spec holds q, findAnswer_lookup history q⟩

/-- After every history of valid calls within 65535 nodes, `find` answers as
the history demands, whatever reallocations happened; `del` returns the live
value, and `find` then answers for the history that ends with this `del`. -/
theorem Mapper.calls_refine_history (history : List MapperCall)
    (valid : ∀ call ∈ history, call.Valid) (bounded : (trieNodes history).card ≤ 65535) :
    ∃ mapper, Mapper.new.calls history = some mapper ∧
      (∀ q, ∃ result, mapper.find q = some result ∧ FindAnswer history q result) ∧
      (∀ name, ∃ after result, mapper.del name = some (after, result) ∧
        DelAnswer history name result ∧
        ∀ q, ∃ found, after.find q = some found ∧
          FindAnswer (history ++ [.del name]) q found) := by
  have rootIncluded : {[]} ∪ trieNodes history = trieNodes history := by
    apply Finset.union_eq_right.mpr
    rw [Finset.singleton_subset_iff]
    clear valid bounded
    induction history with
    | nil => exact Finset.mem_singleton_self _
    | cons call rest ih => exact stems_subset_trieNodes call rest ih
  obtain ⟨mapper, nodes, mapperEq, holds⟩ := Mapper.calls_holds Mapper.new_holds history valid
    (by rw [rootIncluded]; exact bounded)
  refine ⟨mapper, mapperEq, mapper.find_answer holds, ?_⟩
  intro name
  obtain ⟨after, afterEq, afterHolds⟩ := mapper.del_spec holds name
  have deletedHolds : after.Holds nodes (historyTable (history ++ [.del name])) := by
    rw [historyTable_append]
    exact afterHolds
  refine ⟨after, _, afterEq, ?_, after.find_answer deletedHolds⟩
  refine { live := ?_, missing := ?_ }
  · intro value live
    change (historyTable history (routingKey name)).getD 0 = value
    rw [(historyTable_eq_some_iff history _ value).mpr live]
    rfl
  · intro missing
    change (historyTable history (routingKey name)).getD 0 = 0
    rw [(historyTable_eq_none_iff history _).mpr missing]
    rfl

/-- `a/b`, the pattern `a/*` and the deletion of the former. -/
theorem Mapper.calls_refine_history_sample :
    ∃ mapper, Mapper.new.calls [.add (ascii "a/b") 1, .add (ascii "a/*") 2, .del (ascii "a/b")] =
        some mapper ∧
      (∀ q, ∃ result, mapper.find q = some result ∧
        FindAnswer [.add (ascii "a/b") 1, .add (ascii "a/*") 2, .del (ascii "a/b")] q result) ∧
      (∀ name, ∃ after result, mapper.del name = some (after, result) ∧
        DelAnswer [.add (ascii "a/b") 1, .add (ascii "a/*") 2, .del (ascii "a/b")] name result ∧
        ∀ q, ∃ found, after.find q = some found ∧
          FindAnswer ([.add (ascii "a/b") 1, .add (ascii "a/*") 2, .del (ascii "a/b")] ++
            [.del name]) q found) :=
  Mapper.calls_refine_history _
    (by
      intro call member
      simp only [List.mem_cons, List.not_mem_nil, or_false] at member
      rcases member with rfl | rfl | rfl
      · exact ⟨by decide, by decide, by decide⟩
      · exact ⟨by decide, by decide, by decide⟩
      · exact (by decide : ValidKey (ascii "a/b")))
    (by decide)

end Ijson
