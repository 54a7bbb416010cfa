/-
What a search through a JSON object finds, and what a second one finds behind it.

A scanner that has come to the end of its object stands behind the closing
brace.  Asked again it looks for another token there, and with nothing but
whitespace left that is an error.
-/

import Ijson.Connect
import Ijson.JsonMembers

namespace Ijson

namespace JsonText

open Json

/-! ### Positions -/

theorem stripLoop_le {text : Bytes} {index stop : Nat} (done : stripLoop text index = .ok stop) : index ≤ stop := by
  induction text generalizing index with
  | nil => cases done
  | cons a rest ih =>
      rw [stripLoop] at done
      split at done
      · have later := ih done
        omega
      · cases done
        exact Nat.le_refl _

theorem stringLoop_le {before : UInt8} {text : Bytes} {index stop : Nat}
    (done : stringLoop before text index = .ok stop) : index ≤ stop ∧ stop < index + text.length := by
  obtain ⟨body, rest, textEq, stopEq, _⟩ := stringLoop_stops done
  rw [textEq, stopEq]
  simp only [List.length_append, List.length_cons]
  omega

theorem valueLoop_le {start : Nat} {text : Bytes} {index stop : Nat} {isNumber number : Bool}
    (done : valueLoop start text index isNumber = .ok (stop, number)) :
    index ≤ stop ∧ stop < index + text.length := by
  induction text generalizing index isNumber with
  | nil => cases done
  | cons a rest ih =>
      rw [valueLoop] at done
      rw [List.length_cons]
      split at done
      · cases done
        omega
      · simp only at done
        split at done
        · cases done
        · have later := ih done
          omega

theorem objectLoop_le {level : Int} {inString : Option UInt8} {text : Bytes} {index stop : Nat}
    (done : objectLoop level inString text index = .ok stop) :
    index ≤ stop ∧ stop ≤ index + text.length := by
  induction text generalizing level inString index with
  | nil => cases done
  | cons a rest ih =>
      rw [List.length_cons]
      have later : ∀ {level : Int} {inString : Option UInt8},
          objectLoop level inString rest (index + 1) = .ok stop →
            index ≤ stop ∧ stop ≤ index + (rest.length + 1) := by
        intro level inString done
        have bounds := ih done
        omega
      unfold objectLoop at done
      split at done
      · split at done
        · exact later done
        · exact later done
      · split at done
        · exact later done
        · split at done
          · split at done
            · cases done
              omega
            · exact later done
          · split at done
            · exact later done
            · exact later done

theorem next_lt {data : Bytes} {index : Nat} {a : UInt8} (found : next data index = .ok a) :
    index < data.length := by
  rw [next] at found
  split at found
  · cases found
  · rename_i access
    exact (List.getElem?_eq_some_iff.mp access).1

theorem readString_lt {data text : Bytes} {index stop : Nat} (done : readString data index = .ok (text, stop)) :
    index < stop ∧ stop ≤ data.length := by
  rw [readString_eq] at done
  split at done
  · cases done
  · rename_i found
    have inside := next_lt found
    split at done
    · cases done
    · split at done
      · cases done
      · rename_i closed
        have bounds := stringLoop_le closed
        rw [List.length_drop] at bounds
        cases done
        omega

theorem valueAt_le {data value : Bytes} {index stop : Nat} (done : valueAt data index = .ok (value, stop)) :
    index ≤ stop ∧ stop ≤ data.length := by
  rw [valueAt] at done
  split at done
  · cases done
  · rename_i found
    have inside := next_lt found
    split at done
    · have bounds := readString_lt done
      omega
    · split at done
      · rw [readObject_eq] at done
        split at done
        · cases done
        · rename_i closed
          have bounds := objectLoop_le closed
          rw [List.length_drop] at bounds
          cases done
          omega
      · rw [readValue_eq] at done
        split at done
        · cases done
        · rename_i ended
          have bounds := valueLoop_le ended
          rw [List.length_drop] at bounds
          split at done
          · cases done
          · cases done
            omega

theorem member_moves {json after : Json} {index : Nat} {flag : Bool} (done : json.member index = .ok (after, flag)) :
    after.data = json.data ∧ index < after.index ∧ after.index ≤ json.data.length := by
  obtain ⟨first, key, second, third, fourth, value, fifth, toKey, keyRead, toColon, _, toValue, valueRead,
    afterEq, _⟩ := member_ok done
  have atKey := stripLoop_le toKey
  have behindKey := readString_lt keyRead
  have atColon := stripLoop_le toColon
  have atValue := stripLoop_le toValue
  have behindValue := valueAt_le valueRead
  rw [afterEq]
  refine ⟨rfl, ?_, behindValue.2⟩
  change index < fifth
  omega

theorem scan_moves {json after : Json} (done : json.scan = .ok (after, true)) :
    after.data = json.data ∧ json.index < after.index ∧ after.index ≤ json.data.length := by
  rw [Json.scan] at done
  split at done
  · cases done
  · obtain ⟨token, toToken, done⟩ := bind_ok done
    obtain ⟨a, _, done⟩ := bind_ok done
    have front := stripLoop_le toToken
    split at done
    · split at done
      · cases done
      · obtain ⟨second, toSecond, done⟩ := bind_ok done
        obtain ⟨b, _, done⟩ := bind_ok done
        have inner := stripLoop_le toSecond
        split at done
        · cases done
        · have moved := member_moves done
          exact ⟨moved.1, by omega, moved.2.2⟩
    · split at done
      · cases done
      · split at done
        · cases done
        · have moved := member_moves done
          exact ⟨moved.1, by omega, moved.2.2⟩

/-! ### Runs -/

/-- Repeated scans give the members of the list, and then the end in a last state. -/
def scansTo : List (Bytes × Bytes) → Json → Json → Prop
  | [], json, last => json.scan = .ok (last, false)
  | (key, value) :: rest, json, last =>
      ∃ after, json.scan = .ok (after, true) ∧ after.key = key ∧ after.value = value ∧
        scansTo rest after last

/-- The value of the first member with the key. -/
def firstWith (key : Bytes) (members : List (Bytes × Bytes)) : Option Bytes :=
  (members.find? fun member => member.1 = key).map Prod.snd

variable {members : List (Bytes × Bytes)} {json last : Json}

theorem scansTo_length (scanned : scansTo members json last) (inside : json.index ≤ json.data.length) :
    json.index + members.length ≤ json.data.length := by
  induction members generalizing json with
  | nil => exact inside
  | cons member rest ih =>
      obtain ⟨after, scan, _, _, later⟩ := scanned
      obtain ⟨dataEq, moved, bound⟩ := scan_moves scan
      have rest := ih later (by rw [dataEq]; exact bound)
      rw [dataEq] at rest
      rw [List.length_cons]
      omega

theorem firstWith_cons_of_eq {key value : Bytes} (rest : List (Bytes × Bytes)) :
    firstWith key ((key, value) :: rest) = some value := by
  rw [firstWith, List.find?_cons_of_pos (by simp)]
  rfl

theorem firstWith_cons_of_ne {key other value : Bytes} (different : other ≠ key) (rest : List (Bytes × Bytes)) :
    firstWith key ((other, value) :: rest) = firstWith key rest := by
  rw [firstWith, List.find?_cons_of_neg (by simpa using different)]
  rfl

/-- A search stops at the first member with the key, or at the end of the object. -/
theorem scanFor_scansTo {key : Bytes} {fuel : Nat} (scanned : scansTo members json last)
    (enough : members.length < fuel) :
    ∃ left, Http.scanFor key fuel json = .ok (left, firstWith key members) := by
  induction members generalizing json fuel with
  | nil =>
      obtain ⟨fuel, rfl⟩ := Nat.exists_eq_succ_of_ne_zero (Nat.ne_of_gt enough)
      refine ⟨last, ?_⟩
      have ended : json.scan = .ok (last, false) := scanned
      rw [Http.scanFor, ended]
      rfl
  | cons member rest ih =>
      obtain ⟨fuel, rfl⟩ := Nat.exists_eq_succ_of_ne_zero (Nat.ne_of_gt (Nat.lt_of_le_of_lt (Nat.zero_le _) enough))
      obtain ⟨after, scan, keyEq, valueEq, later⟩ := scanned
      obtain ⟨other, value⟩ := member
      rw [Http.scanFor, scan]
      by_cases same : other = key
      · refine ⟨after, ?_⟩
        have found : after.key = key := keyEq.trans same
        simp only [if_pos found]
        rw [same, firstWith_cons_of_eq, valueEq]
      · have passed : after.key ≠ key := fun found => same (keyEq.symm.trans found)
        simp only [if_neg passed]
        rw [firstWith_cons_of_ne same]
        exact ih later (Nat.lt_of_succ_lt_succ enough)

/-! ### Behind the end -/

theorem stripLoop_space {text : Bytes} (space : Space text) (index : Nat) :
    stripLoop text index = .error .invalidData := by
  induction text generalizing index with
  | nil => rfl
  | cons a rest ih =>
      have blanks : (a = blank || a = newline || a = 13 || a = 9) = true := space a List.mem_cons_self
      rw [stripLoop, if_pos blanks]
      exact ih (fun b member => space b (List.mem_cons_of_mem a member)) (index + 1)

/-- Another scan where only whitespace is left is an error. -/
theorem scan_behind (nonempty : json.data ≠ []) (space : Space (json.data.drop json.index)) :
    json.scan = .error .invalidData := by
  rw [Json.scan, List.isEmpty_eq_false_iff.mpr nonempty]
  simp only [strip, stripLoop_space space, bind, Except.bind, Bool.false_eq_true, if_false]

/-- The scanner accepts the text to its end: it reads the members, then the closing
brace, and nothing but whitespace is left. -/
structure Accepted (text : Bytes) (members : List (Bytes × Bytes)) (last : Json) : Prop where
  scanned : scansTo members (Json.load text 0) last
  trail : Space (text.drop last.index)

theorem scan_data {after : Json} {flag : Bool} (done : json.scan = .ok (after, flag)) : after.data = json.data := by
  cases flag with
  | true => exact (scan_moves done).1
  | false =>
      rw [Json.scan] at done
      split at done
      · cases done
        rfl
      · obtain ⟨token, _, done⟩ := bind_ok done
        obtain ⟨a, _, done⟩ := bind_ok done
        split at done
        · split at done
          · cases done
          · obtain ⟨second, _, done⟩ := bind_ok done
            obtain ⟨b, _, done⟩ := bind_ok done
            split at done
            · cases done
              rfl
            · exact (member_moves done).1
        · split at done
          · cases done
            rfl
          · split at done
            · cases done
            · exact (member_moves done).1

theorem scansTo_data (scanned : scansTo members json last) : last.data = json.data := by
  induction members generalizing json with
  | nil => exact scan_data scanned
  | cons member rest ih =>
      obtain ⟨after, scan, _, _, later⟩ := scanned
      exact (ih later).trans (scan_data scan)

/-! ### Objects -/

theorem scansTo_behind {members : List Member} {json : Json} {gap trail : Bytes} (started : json.status = 1)
    (stands : json.data.drop json.index = gap ++ behind members trail) (space : Space gap)
    (valid : ∀ member ∈ members, member.Valid fun _ => True)
    (read : ∀ member ∈ members, Member.Read member) :
    ∃ last, scansTo (members.map pair) json last ∧ json.data.drop last.index = trail := by
  induction members generalizing json gap with
  | nil =>
      have ended := scan_next started rfl stands space closeBrace_token
      rw [if_pos rfl] at ended
      have position := drop_succ (drop_add stands)
      exact ⟨_, ended, position⟩
  | cons first rest ih =>
      have step := scan_next started rfl stands space rfl
      rw [if_neg (by decide), if_neg (by decide)] at step
      have atMember := drop_succ (drop_add stands)
      obtain ⟨separator, tail, behindEq, separates⟩ := behind_head rest trail
      rw [behindEq] at atMember
      have firstValid := valid first List.mem_cons_self
      obtain ⟨after, done, dataEq, status, keyEq, valueEq, position⟩ :=
        member_scanned atMember firstValid separates (read first List.mem_cons_self)
      rw [← behindEq, ← dataEq] at position
      obtain ⟨last, scanned, lastEq⟩ := ih status position firstValid.after
        (fun other member => valid other (List.mem_cons_of_mem first member))
        (fun other member => read other (List.mem_cons_of_mem first member))
      exact ⟨last, ⟨after, step.trans done, keyEq, valueEq, scanned⟩, by rw [← dataEq, lastEq]⟩

/-- The scanner comes to the end of an object whose members it reads as they are meant. -/
theorem scansTo_object (object : ObjectText) (level : Nat) (valid : object.Valid fun _ => True)
    (read : ∀ member ∈ object.members, Member.Read member) :
    ∃ last, scansTo (object.members.map pair) (Json.load object.bytes level) last ∧
      object.bytes.drop last.index = object.trail := by
  have fresh : (Json.load object.bytes level).status = 0 := rfl
  have front : (Json.load object.bytes level).index = 0 := rfl
  cases members : object.members with
  | nil =>
      have stands : (Json.load object.bytes level).data.drop 0 =
          object.lead ++ openBrace :: (object.gap ++ closeBrace :: object.trail) := by
        rw [List.drop_zero, Json.load, ObjectText.bytes, members]
        simp
      have ended := scan_first fresh front stands valid.lead valid.gap closeBrace_token
      rw [if_pos rfl] at ended
      have position := drop_succ (drop_add (drop_succ (drop_add stands)))
      exact ⟨_, ended, position⟩
  | cons first rest =>
      have stands : (Json.load object.bytes level).data.drop 0 =
          object.lead ++ openBrace :: (first.before ++ quote ::
            (({ first with before := [] } : Member).text.tail ++ behind rest object.trail)) :=
        bytes_cons object members
      have firstValid := valid.members first (by rw [members]; exact List.mem_cons_self)
      have firstRead := read first (by rw [members]; exact List.mem_cons_self)
      have step := scan_first fresh front stands valid.lead firstValid.before rfl
      rw [if_neg (by decide)] at step
      have atMember : (Json.load object.bytes level).data.drop (0 + object.lead.length + 1 + first.before.length) =
          ({ first with before := [] } : Member).text ++ behind rest object.trail :=
        drop_add (drop_succ (drop_add stands))
      obtain ⟨separator, tail, behindEq, separates⟩ := behind_head rest object.trail
      rw [behindEq] at atMember
      have opened : ({ first with before := [] } : Member).Valid fun _ => True :=
        { firstValid with before := fun a nothing => by cases nothing }
      obtain ⟨after, done, dataEq, status, keyEq, valueEq, position⟩ :=
        member_scanned atMember opened separates ⟨firstRead.key, firstRead.value⟩
      rw [← behindEq, ← dataEq] at position
      obtain ⟨last, scanned, lastEq⟩ := scansTo_behind status position firstValid.after
        (fun other member => valid.members other (by rw [members]; exact List.mem_cons_of_mem first member))
        (fun other member => read other (by rw [members]; exact List.mem_cons_of_mem first member))
      rw [dataEq] at lastEq
      exact ⟨last, ⟨after, step.trans done, keyEq, valueEq, scanned⟩, lastEq⟩

theorem accepted_object (object : ObjectText) (valid : object.Valid fun _ => True)
    (read : ∀ member ∈ object.members, Member.Read member) :
    ∃ last, Accepted object.bytes (object.members.map pair) last := by
  obtain ⟨last, scanned, position⟩ := scansTo_object object 0 valid read
  exact ⟨last, scanned, position ▸ valid.trail⟩

end JsonText

end Ijson
