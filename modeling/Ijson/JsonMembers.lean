/-
Repeated scans of a JSON object: the members in order, and then the end.

What the scanner needs of a member, over the grammar: no backslash at the end
of a key or string, brackets that balance outside of what it takes for strings,
only digits in a number, and no tab behind a number or a literal.
-/

import Ijson.JsonScan

namespace Ijson

open Json

namespace JsonText

/-! ### The routine for one member -/

/-- The value at an index, read by its first byte. -/
def valueAt (data : Bytes) (index : Nat) : Except Exc (Bytes × Nat) :=
  match next data index with
  | .error error => .error error
  | .ok a =>
      if a = quote then readString data index
      else if (a = openBrace || a = openBracket) = true then readObject data index
      else readValue data index

theorem bind_ok {α β : Type} {first : Except Exc α} {later : α → Except Exc β} {result : β}
    (done : first >>= later = .ok result) : ∃ a, first = .ok a ∧ later a = .ok result := by
  cases first with
  | error error => cases done
  | ok a => exact ⟨a, rfl, done⟩

theorem member_read {json : Json} {index first second third fourth fifth : Nat} {key value : Bytes}
    (toKey : strip json.data index = .ok first)
    (keyRead : readString json.data first = .ok (key, second))
    (toColon : strip json.data second = .ok third) (colon : next json.data third = .ok 58)
    (toValue : strip json.data (third + 1) = .ok fourth)
    (valueRead : valueAt json.data fourth = .ok (value, fifth)) :
    json.member index =
      .ok ({ json with status := 1, index := fifth, key := key, value := value }, true) := by
  rw [Json.member]
  simp only [bind, Except.bind, toKey, keyRead, toColon, colon, toValue]
  rw [valueAt] at valueRead
  cases nextEq : next json.data fourth with
  | error error =>
      rw [nextEq] at valueRead
      cases valueRead
  | ok a =>
      rw [nextEq] at valueRead
      simp only [ne_eq, not_true_eq_false, if_false]
      simp only at valueRead
      split at valueRead
      · rename_i string
        rw [if_pos string, valueRead]
        rfl
      · rename_i noString
        rw [if_neg noString]
        split at valueRead
        · rename_i brackets
          rw [if_pos brackets, valueRead]
          rfl
        · rename_i noBrackets
          rw [if_neg noBrackets, valueRead]
          rfl

theorem member_ok {json after : Json} {index : Nat} {flag : Bool}
    (done : json.member index = .ok (after, flag)) :
    ∃ first key second third fourth value fifth,
      strip json.data index = .ok first ∧ readString json.data first = .ok (key, second) ∧
      strip json.data second = .ok third ∧ next json.data third = .ok 58 ∧
      strip json.data (third + 1) = .ok fourth ∧ valueAt json.data fourth = .ok (value, fifth) ∧
      after = { json with status := 1, index := fifth, key := key, value := value } ∧ flag = true := by
  rw [Json.member] at done
  obtain ⟨first, toKey, done⟩ := bind_ok done
  obtain ⟨⟨key, second⟩, keyRead, done⟩ := bind_ok done
  obtain ⟨third, toColon, done⟩ := bind_ok done
  obtain ⟨colon, colonEq, done⟩ := bind_ok done
  by_cases isColon : colon = 58
  · rw [isColon] at done colonEq
    obtain ⟨fourth, toValue, done⟩ := bind_ok done
    obtain ⟨a, nextEq, done⟩ := bind_ok done
    have valueRead : ∃ value fifth, valueAt json.data fourth = .ok (value, fifth) ∧
        after = { json with status := 1, index := fifth, key := key, value := value } ∧
        flag = true := by
      rw [valueAt, nextEq]
      simp only at done ⊢
      split at done
      · rename_i string
        rw [if_pos string]
        obtain ⟨⟨value, fifth⟩, valueRead, done⟩ := bind_ok done
        cases done
        exact ⟨value, fifth, valueRead, rfl, rfl⟩
      · rename_i noString
        rw [if_neg noString]
        split at done
        · rename_i brackets
          rw [if_pos brackets]
          obtain ⟨⟨value, fifth⟩, valueRead, done⟩ := bind_ok done
          cases done
          exact ⟨value, fifth, valueRead, rfl, rfl⟩
        · rename_i noBrackets
          rw [if_neg noBrackets]
          obtain ⟨⟨value, fifth⟩, valueRead, done⟩ := bind_ok done
          cases done
          exact ⟨value, fifth, valueRead, rfl, rfl⟩
    obtain ⟨value, fifth, valueRead, afterEq, flagEq⟩ := valueRead
    exact ⟨first, key, second, third, fourth, value, fifth, toKey, keyRead, toColon, colonEq, toValue,
      valueRead, afterEq, flagEq⟩
  · simp only [ne_eq, isColon, not_false_eq_true, if_true] at done
    cases done

/-! ### Values -/

/-- The value is read as it is meant when `after` follows it. -/
def RawValue.Read (value : RawValue) (after : Bytes) : Prop :=
  match value with
  | .string body => Tame body
  | .scalar text => Simple text ∧ after.head? ≠ some 9
  | .nested text => Closed text

theorem scalar_head {text : Bytes} (scalar : Scalar text) :
    ∃ a rest, text = a :: rest ∧ isScalarByte a = true := by
  obtain ⟨notEmpty, bytes⟩ := scalar_bytes scalar
  cases text with
  | nil => exact absurd rfl notEmpty
  | cons a rest => exact ⟨a, rest, rfl, bytes a List.mem_cons_self⟩

theorem value_head {ok : Bytes → Prop} {value : RawValue} (valid : value.Valid ok) :
    ∃ a rest, value.text = a :: rest ∧ isSpace a = false := by
  cases value with
  | string body => exact ⟨quote, body ++ [quote], rfl, rfl⟩
  | scalar text =>
      obtain ⟨a, rest, textEq, scalar⟩ := scalar_head valid
      exact ⟨a, rest, textEq, isSpace_of_scalar scalar⟩
  | nested text =>
      obtain ⟨a, rest, textEq, opens⟩ := nested_head valid
      refine ⟨a, rest, textEq, ?_⟩
      simp only [Bool.or_eq_true, decide_eq_true_eq] at opens
      rcases opens with same | same <;> (rw [same]; rfl)

theorem valueAt_string {data rest : Bytes} {index : Nat} (stands : data.drop index = quote :: rest) :
    valueAt data index = readString data index := by
  rw [valueAt, next_eq stands]
  exact if_pos rfl

theorem valueAt_nested {data rest : Bytes} {index : Nat} {a : UInt8}
    (opens : (a = openBrace || a = openBracket) = true) (stands : data.drop index = a :: rest) :
    valueAt data index = readObject data index := by
  have noQuote : a ≠ quote := by
    intro same
    rw [same] at opens
    cases opens
  rw [valueAt, next_eq stands]
  simp only
  rw [if_neg noQuote, if_pos opens]

theorem valueAt_scalar {data rest : Bytes} {index : Nat} {a : UInt8}
    (scalar : isScalarByte a = true) (stands : data.drop index = a :: rest) :
    valueAt data index = readValue data index := by
  have plain := isPlain_of_scalar scalar
  simp only [isPlain, Bool.not_eq_true', Bool.or_eq_false_iff, decide_eq_false_iff_not] at plain
  rw [valueAt, next_eq stands]
  simp [plain]

theorem ends_of_space {a : UInt8} (space : isSpace a = true) (noTab : a ≠ 9) : ends a = true := by
  simp only [isSpace, Bool.or_eq_true, decide_eq_true_eq] at space
  rcases space with ((same | same) | same) | same
  · rw [same]
    rfl
  · rw [same]
    rfl
  · rw [same]
    rfl
  · exact absurd same noTab

theorem valueAt_read {data after rest : Bytes} {index : Nat} {separator : UInt8} {value : RawValue}
    (stands : data.drop index = value.text ++ (after ++ separator :: rest))
    (valid : value.Valid fun _ => True) (space : Space after) (separates : ends separator = true)
    (read : RawValue.Read value after) :
    valueAt data index = .ok (value.raw, index + value.text.length) := by
  cases value with
  | string body =>
      have opened : data.drop index = quote :: body ++ quote :: (after ++ separator :: rest) := by
        rw [stands]
        simp [RawValue.text]
      rw [valueAt_string opened, readString_tame opened valid.1 read]
      simp only [RawValue.raw, RawValue.text, List.length_append, List.length_cons, List.length_nil]
      congr 2
  | nested text =>
      obtain ⟨a, tail, textEq, opens⟩ := nested_head valid
      have opened : data.drop index = a :: (tail ++ (after ++ separator :: rest)) := by
        rw [stands, RawValue.text, textEq]
        rfl
      rw [valueAt_nested opens opened]
      exact readObject_closed stands valid read
  | scalar text =>
      obtain ⟨a, tail, textEq, scalarByte⟩ := scalar_head valid
      have opened : data.drop index = a :: (tail ++ (after ++ separator :: rest)) := by
        rw [stands, RawValue.text, textEq]
        rfl
      rw [valueAt_scalar scalarByte opened]
      cases after with
      | nil => exact readValue_simple stands valid read.1 separates
      | cons b gap =>
          have noTab : b ≠ 9 := by
            intro same
            rw [same] at read
            exact read.2 rfl
          exact readValue_simple stands valid read.1
            (ends_of_space (space b List.mem_cons_self) noTab)

theorem read_of_valueAt {data after rest : Bytes} {index stop : Nat} {separator : UInt8}
    {value : RawValue} (stands : data.drop index = value.text ++ (after ++ separator :: rest))
    (valid : value.Valid fun _ => True) (done : valueAt data index = .ok (value.raw, stop)) :
    RawValue.Read value after ∧ stop = index + value.text.length := by
  cases value with
  | string body =>
      have opened : data.drop index = quote :: body ++ quote :: (after ++ separator :: rest) := by
        rw [stands]
        simp [RawValue.text]
      rw [valueAt_string opened] at done
      obtain ⟨tame, stopEq⟩ := tame_of_readString opened done
      refine ⟨tame, ?_⟩
      simp only [RawValue.text, List.length_append, List.length_cons, List.length_nil]
      omega
  | nested text =>
      obtain ⟨a, tail, textEq, opens⟩ := nested_head valid
      have opened : data.drop index = a :: (tail ++ (after ++ separator :: rest)) := by
        rw [stands, RawValue.text, textEq]
        rfl
      rw [valueAt_nested opens opened] at done
      exact closed_of_readObject stands valid done
  | scalar text =>
      obtain ⟨a, tail, textEq, scalarByte⟩ := scalar_head valid
      have opened : data.drop index = a :: (tail ++ (after ++ separator :: rest)) := by
        rw [stands, RawValue.text, textEq]
        rfl
      rw [valueAt_scalar scalarByte opened] at done
      obtain ⟨simple, stopEq, b, behind, restEq, stops⟩ := simple_of_readValue stands done
      refine ⟨⟨simple, ?_⟩, stopEq⟩
      intro tab
      cases after with
      | nil => cases tab
      | cons c gap =>
          rw [List.cons_append, List.cons.injEq] at restEq
          rw [List.head?_cons, Option.some.injEq, restEq.1] at tab
          rw [tab] at stops
          cases stops

/-! ### Members -/

/-- The scanner reads the member as it is meant. -/
structure Member.Read (member : Member) : Prop where
  key : Tame member.key
  value : RawValue.Read member.value member.after

theorem member_split (member : Member) (rest : Bytes) :
    member.text ++ rest =
      member.before ++ quote :: (member.key ++ quote :: (member.afterKey ++ 58 ::
        (member.beforeValue ++ (member.value.text ++ (member.after ++ rest))))) := by
  simp [Member.text]

theorem strip_token {data gap rest : Bytes} {a : UInt8} {index : Nat}
    (stands : data.drop index = gap ++ a :: rest) (space : Space gap) (token : isSpace a = false) :
    strip data index = .ok (index + gap.length) ∧ data.drop (index + gap.length) = a :: rest :=
  ⟨strip_eq stands space token, drop_add stands⟩

theorem strip_value {ok : Bytes → Prop} {data gap rest : Bytes} {index : Nat} {value : RawValue}
    (stands : data.drop index = gap ++ (value.text ++ rest)) (space : Space gap)
    (valid : value.Valid ok) :
    strip data index = .ok (index + gap.length) ∧
      data.drop (index + gap.length) = value.text ++ rest := by
  obtain ⟨a, tail, textEq, token⟩ := value_head valid
  refine ⟨?_, drop_add stands⟩
  rw [textEq] at stands
  exact strip_eq stands space token

theorem member_scanned {json : Json} {index : Nat} {rest : Bytes} {separator : UInt8}
    {member : Member} (stands : json.data.drop index = member.text ++ separator :: rest)
    (valid : member.Valid fun _ => True) (separates : ends separator = true)
    (read : Member.Read member) :
    ∃ after, json.member index = .ok (after, true) ∧ after.data = json.data ∧ after.status = 1 ∧
      after.key = member.key ∧ after.value = member.value.raw ∧
      json.data.drop after.index = member.after ++ separator :: rest := by
  rw [member_split] at stands
  obtain ⟨toKey, atKey⟩ := strip_token stands valid.before rfl
  have keyRead := readString_tame atKey valid.key.1 read.key
  have behindKey := @drop_add _ (quote :: member.key ++ [quote]) _ _ (by simpa using atKey)
  obtain ⟨toColon, atColon⟩ := strip_token behindKey valid.afterKey rfl
  obtain ⟨toValue, atValue⟩ := strip_value (drop_succ atColon) valid.beforeValue valid.value
  have valueRead := valueAt_read atValue valid.value valid.after separates read.value
  have lengths : (quote :: member.key ++ [quote]).length = member.key.length + 2 := by simp
  rw [lengths, ← Nat.add_assoc] at toColon atColon toValue atValue valueRead
  exact ⟨_, member_read toKey keyRead toColon (next_eq atColon) toValue valueRead, rfl, rfl, rfl, rfl,
    drop_add atValue⟩

/-- A member whose scan gives what it means was read as it is meant. -/
theorem read_of_member {json after : Json} {index : Nat} {rest : Bytes} {separator : UInt8}
    {member : Member} {flag : Bool}
    (stands : json.data.drop index = member.text ++ separator :: rest)
    (valid : member.Valid fun _ => True) (done : json.member index = .ok (after, flag))
    (keyEq : after.key = member.key) (valueEq : after.value = member.value.raw) :
    Member.Read member ∧ after.data = json.data ∧ after.status = 1 ∧
      json.data.drop after.index = member.after ++ separator :: rest := by
  rw [member_split] at stands
  obtain ⟨first, key, second, third, fourth, value, fifth, toKey, keyRead, toColon, _, toValue,
    valueRead, afterEq, _⟩ := member_ok done
  rw [afterEq] at keyEq valueEq ⊢
  simp only at keyEq valueEq ⊢
  rw [keyEq] at keyRead
  rw [valueEq] at valueRead
  obtain ⟨toKey', atKey⟩ := strip_token stands valid.before rfl
  rw [toKey', Except.ok.injEq] at toKey
  rw [toKey] at atKey
  obtain ⟨tame, secondEq⟩ := tame_of_readString atKey keyRead
  have behindKey := @drop_add _ (quote :: member.key ++ [quote]) _ _ (by simpa using atKey)
  have lengths : first + (quote :: member.key ++ [quote]).length = second := by
    rw [secondEq]
    simp
    omega
  rw [lengths] at behindKey
  obtain ⟨toColon', atColon⟩ := strip_token behindKey valid.afterKey rfl
  rw [toColon', Except.ok.injEq] at toColon
  rw [toColon] at atColon
  obtain ⟨toValue', atValue⟩ := strip_value (drop_succ atColon) valid.beforeValue valid.value
  rw [toValue', Except.ok.injEq] at toValue
  rw [toValue] at atValue
  obtain ⟨read, fifthEq⟩ := read_of_valueAt atValue valid.value valueRead
  refine ⟨⟨tame, read⟩, trivial, trivial, ?_⟩
  rw [fifthEq]
  exact drop_add atValue

/-! ### Scans -/

theorem membersText_cons (first : Member) (rest : List Member) :
    membersText (first :: rest) =
      match rest with
      | [] => first.text ++ [closeBrace]
      | second :: rest => first.text ++ comma :: membersText (second :: rest) := by
  cases rest with
  | nil => rfl
  | cons second rest => rfl

/-- The members of the list come from repeated scans, and then the end. -/
def scans : List (Bytes × Bytes) → Json → Prop
  | [], json => ∃ after, json.scan = .ok (after, false)
  | (key, value) :: rest, json =>
      ∃ after, json.scan = .ok (after, true) ∧ after.key = key ∧ after.value = value ∧
        scans rest after

def pair (member : Member) : Bytes × Bytes := (member.key, member.value.raw)

theorem drop_isEmpty {data rest : Bytes} {index : Nat} {a : UInt8} (stands : data.drop index = a :: rest) :
    data.isEmpty = false := by
  cases data with
  | nil => cases index <;> cases stands
  | cons b data => rfl

theorem scan_first {json : Json} {gap lead rest : Bytes} {a : UInt8} {index : Nat}
    (start : json.status = 0) (indexEq : json.index = index)
    (stands : json.data.drop index = lead ++ openBrace :: (gap ++ a :: rest)) (leadSpace : Space lead)
    (gapSpace : Space gap) (token : isSpace a = false) :
    json.scan =
      if a = closeBrace then
        .ok ({ json with index := index + lead.length + 1 + gap.length + 1 }, false)
      else json.member (index + lead.length + 1 + gap.length) := by
  obtain ⟨toBrace, atBrace⟩ := strip_token stands leadSpace rfl
  obtain ⟨toMember, atMember⟩ := strip_token (drop_succ atBrace) gapSpace token
  rw [Json.scan, drop_isEmpty atBrace, indexEq]
  simp only [bind, Except.bind, toBrace, next_eq atBrace, start, toMember, next_eq atMember, ne_eq,
    not_true_eq_false, Bool.false_eq_true, if_false, if_true]
  rfl

theorem scan_next {json : Json} {gap rest : Bytes} {a : UInt8} {index : Nat}
    (later : json.status = 1) (indexEq : json.index = index)
    (stands : json.data.drop index = gap ++ a :: rest) (space : Space gap) (token : isSpace a = false) :
    json.scan =
      if a = closeBrace then .ok ({ json with index := index + gap.length + 1 }, false)
      else if a ≠ comma then .error .invalidData
      else json.member (index + gap.length + 1) := by
  obtain ⟨toToken, atToken⟩ := strip_token stands space token
  rw [Json.scan, drop_isEmpty atToken, indexEq]
  simp only [bind, Except.bind, toToken, next_eq atToken, later, Bool.false_eq_true, if_false]
  rfl

/-- What stands behind a member, the comma or closing brace included. -/
def behind : List Member → Bytes → Bytes
  | [], trail => closeBrace :: trail
  | first :: rest, trail => comma :: (first.text ++ behind rest trail)

theorem behind_head (rest : List Member) (trail : Bytes) :
    ∃ separator tail, behind rest trail = separator :: tail ∧ ends separator = true := by
  cases rest with
  | nil => exact ⟨closeBrace, trail, rfl, rfl⟩
  | cons first rest => exact ⟨comma, _, rfl, rfl⟩

theorem membersText_behind (first : Member) (rest : List Member) (trail : Bytes) :
    membersText (first :: rest) ++ trail = first.text ++ behind rest trail := by
  induction rest generalizing first with
  | nil =>
      rw [membersText_cons, behind]
      simp
  | cons second rest ih =>
      rw [membersText_cons, behind, ← ih second]
      simp

theorem closeBrace_token : isSpace closeBrace = false := rfl

/-- One member is read at an index, the others by the scans after it. -/
theorem scans_member {json : Json} {index : Nat} {member : Member} {rest : List Member} {trail : Bytes}
    (scan : json.scan = json.member index)
    (stands : json.data.drop index = member.text ++ behind rest trail)
    (valid : member.Valid fun _ => True)
    (later : ∀ after : Json, after.status = 1 →
      after.data.drop after.index = member.after ++ behind rest trail →
      (scans (rest.map pair) after ↔ ∀ other ∈ rest, Member.Read other)) :
    scans ((member :: rest).map pair) json ↔ ∀ other ∈ member :: rest, Member.Read other := by
  obtain ⟨separator, tail, behindEq, separates⟩ := behind_head rest trail
  rw [behindEq] at stands
  rw [List.map_cons, List.forall_mem_cons]
  constructor
  · intro scanned
    obtain ⟨after, scanEq, keyEq, valueEq, others⟩ := scanned
    rw [scan] at scanEq
    obtain ⟨read, dataEq, status, position⟩ := read_of_member stands valid scanEq keyEq valueEq
    refine ⟨read, (later after status ?_).mp others⟩
    rw [dataEq, position, behindEq]
  · intro read
    obtain ⟨after, done, dataEq, status, keyEq, valueEq, position⟩ :=
      member_scanned stands valid separates read.1
    refine ⟨after, by rw [scan]; exact done, keyEq, valueEq, (later after status ?_).mpr read.2⟩
    rw [dataEq, position, behindEq]

theorem scans_behind {members : List Member} {json : Json} {gap trail : Bytes} (started : json.status = 1)
    (stands : json.data.drop json.index = gap ++ behind members trail) (space : Space gap)
    (valid : ∀ member ∈ members, member.Valid fun _ => True) :
    scans (members.map pair) json ↔ ∀ member ∈ members, Member.Read member := by
  induction members generalizing json gap with
  | nil =>
      refine ⟨fun _ member nothing => (by cases nothing), fun _ => ?_⟩
      have ended := scan_next started rfl stands space closeBrace_token
      rw [if_pos rfl] at ended
      exact ⟨_, ended⟩
  | cons first rest ih =>
      have step := scan_next started rfl stands space rfl
      rw [if_neg (by decide), if_neg (by decide)] at step
      obtain ⟨_, atComma⟩ := strip_token stands space rfl
      have firstValid := valid first List.mem_cons_self
      exact scans_member step (drop_succ atComma) firstValid fun after status position =>
        ih status position firstValid.after fun other member =>
          valid other (List.mem_cons_of_mem first member)

theorem bytes_cons (object : ObjectText) {first : Member} {rest : List Member}
    (members : object.members = first :: rest) :
    object.bytes =
      object.lead ++ openBrace :: (first.before ++ quote ::
        (({ first with before := [] } : Member).text.tail ++ behind rest object.trail)) := by
  rw [ObjectText.bytes, members]
  simp only [List.append_assoc, List.cons_append]
  rw [membersText_behind, member_split]
  simp [Member.text]

/-- Repeated scans give the members of a JSON object in order, and then false,
exactly if the scanner reads every member as it is meant. -/
theorem scans_iff (object : ObjectText) (level : Nat) (valid : object.Valid fun _ => True) :
    scans (object.members.map pair) (Json.load object.bytes level) ↔
      ∀ member ∈ object.members, Member.Read member := by
  have fresh : (Json.load object.bytes level).status = 0 := rfl
  have front : (Json.load object.bytes level).index = 0 := rfl
  cases members : object.members with
  | nil =>
      refine ⟨fun _ member nothing => (by cases nothing), fun _ => ?_⟩
      have stands : (Json.load object.bytes level).data.drop 0 =
          object.lead ++ openBrace :: (object.gap ++ closeBrace :: object.trail) := by
        rw [List.drop_zero, Json.load, ObjectText.bytes, members]
        simp
      have ended := scan_first fresh front stands valid.lead valid.gap closeBrace_token
      rw [if_pos rfl] at ended
      exact ⟨_, ended⟩
  | cons first rest =>
      have stands : (Json.load object.bytes level).data.drop 0 =
          object.lead ++ openBrace :: (first.before ++ quote ::
            (({ first with before := [] } : Member).text.tail ++ behind rest object.trail)) :=
        bytes_cons object members
      have firstValid := valid.members first (by rw [members]; exact List.mem_cons_self)
      have scan := scan_first fresh front stands valid.lead firstValid.before rfl
      rw [if_neg (by decide)] at scan
      obtain ⟨_, atBrace⟩ := strip_token stands valid.lead rfl
      obtain ⟨_, atMember⟩ := strip_token (drop_succ atBrace) firstValid.before rfl
      have opened : ({ first with before := [] } : Member).Valid fun _ => True :=
        { firstValid with before := fun a nothing => by cases nothing }
      have each := @scans_member _ _ { first with before := [] } _ _ scan atMember opened
        fun after status position => scans_behind status position firstValid.after
          fun other member => valid.members other (by rw [members]; exact List.mem_cons_of_mem first member)
      rw [List.forall_mem_cons] at each ⊢
      exact each.trans (and_congr ⟨fun read => ⟨read.key, read.value⟩, fun read => ⟨read.key, read.value⟩⟩
        Iff.rfl)

/-! ### Texts without the rare cases -/

/-- A number of the member is a run of digits, and no tab stands directly behind
a number or literal. -/
def Member.Plain (member : Member) : Prop :=
  ∀ text, member.value = .scalar text → Simple text ∧ member.after.head? ≠ some 9

theorem Member.Plain.read {member : Member} (plain : member.Plain) (valid : member.Valid Tame) :
    Member.Read member where
  key := valid.key.2
  value := by
    have value := valid.value
    cases same : member.value with
    | string body =>
        rw [same] at value
        exact value.2
    | scalar text => exact plain text same
    | nested text =>
        rw [same] at value
        exact closed_of_tame value

theorem scans_members (object : ObjectText) (level : Nat) (valid : object.Valid Tame)
    (plain : ∀ member ∈ object.members, Member.Plain member) :
    scans (object.members.map pair) (Json.load object.bytes level) :=
  (scans_iff object level (valid.mono fun _ _ => trivial)).mpr fun member isMember =>
    (plain member isMember).read (valid.members member isMember)

/-- `{"a": ["\"x"], "n":12}` -/
def sampleObject : ObjectText where
  lead := []
  gap := []
  members :=
    [{ before := []
       key := ascii "a"
       afterKey := []
       beforeValue := [blank]
       value := .nested (openBracket :: ([] ++ (quote :: ascii "\\\"x" ++ [quote]) ++ []) ++ [closeBracket])
       after := [] },
      { before := [blank]
        key := ascii "n"
        afterKey := []
        beforeValue := []
        value := .scalar (ascii "12")
        after := [] }]
  trail := []

theorem space_nil : Space [] := fun a nothing => by cases nothing

theorem space_blank : Space [blank] := fun a member => by
  rw [List.mem_singleton.mp member]
  rfl

theorem sampleObject_valid : sampleObject.Valid Tame where
  lead := space_nil
  gap := space_nil
  members := by
    have letter : ∀ a, 32 ≤ a.toNat → a ≠ quote → a ≠ backslash → StringBody [a] :=
      fun a printable notQuote notEscape => .plain printable notQuote notEscape .nil
    have inner : StringBody (ascii "\\\"x") :=
      .escape (by decide) (letter 120 (by decide) (by decide) (by decide))
    have number : Scalar (ascii "12") :=
      Or.inr ⟨[], ascii "12", [], [], rfl, Or.inl rfl, Or.inr (by simp [Digits, ascii]; decide), Or.inl rfl,
        Or.inl rfl⟩
    intro member isMember
    simp only [sampleObject, List.mem_cons, List.not_mem_nil, or_false] at isMember
    rcases isMember with isFirst | isSecond
    · rw [isFirst]
      exact
        { before := space_nil
          key := ⟨letter 97 (by decide) (by decide) (by decide), by decide⟩
          afterKey := space_nil
          beforeValue := space_blank
          value := .array (.element space_nil (.string inner (by decide)) space_nil)
          after := space_nil }
    · rw [isSecond]
      exact
        { before := space_blank
          key := ⟨letter 110 (by decide) (by decide) (by decide), by decide⟩
          afterKey := space_nil
          beforeValue := space_nil
          value := number
          after := space_nil }
  trail := space_nil

theorem scans_members_sample :
    scans [(ascii "a", ascii "[\"\\\"x\"]"), (ascii "n", ascii "12")]
      (Json.load (ascii "\x7b\"a\": [\"\\\"x\"], \"n\":12\x7d") 0) := by
  have plain : ∀ member ∈ sampleObject.members, Member.Plain member := by
    intro member isMember
    simp only [sampleObject, List.mem_cons, List.not_mem_nil, or_false] at isMember
    rcases isMember with isFirst | isSecond
    · rw [isFirst]
      intro text same
      cases same
    · rw [isSecond]
      intro text same
      cases same
      exact ⟨Or.inr (List.all_eq_true.mp (by decide)), by decide⟩
  exact scans_members sampleObject 0 sampleObject_valid plain

/-- `{"a":-1}` -/
def negativeNumber : ObjectText where
  lead := []
  gap := []
  members :=
    [{ before := []
       key := ascii "a"
       afterKey := []
       beforeValue := []
       value := .scalar (ascii "-1")
       after := [] }]
  trail := []

/-- Numbers with a sign are refused. -/
theorem negative_number_refused :
    (negativeNumber.Valid fun _ => True) ∧
      (Json.load negativeNumber.bytes 0).scan = .error .invalidData ∧
      ¬ scans (negativeNumber.members.map pair) (Json.load negativeNumber.bytes 0) := by
  have refused : (Json.load negativeNumber.bytes 0).scan = .error .invalidData := by decide
  refine ⟨⟨space_nil, space_nil, ?_, space_nil⟩, refused, ?_⟩
  · have number : Scalar (ascii "-1") :=
      Or.inr ⟨[45], ascii "1", [], [], rfl, Or.inr rfl, Or.inr (by simp [Digits, ascii]; decide),
        Or.inl rfl, Or.inl rfl⟩
    intro member isMember
    rw [List.mem_singleton.mp isMember]
    exact
      { before := space_nil
        key := ⟨.plain (by decide) (by decide) (by decide) .nil, trivial⟩
        afterKey := space_nil
        beforeValue := space_nil
        value := number
        after := space_nil }
  · intro scanned
    obtain ⟨after, done, _⟩ := scanned
    rw [refused] at done
    cases done

end JsonText

end Ijson
