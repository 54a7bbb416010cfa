/-
The filter on client addresses: `NetFilter` and `Server::_valid_ip`.

An address in network byte order has its first octet in the lowest byte of an
`u32`, on a machine that stores the lowest byte first.  The mask is made in the
other order and its bytes are exchanged.
-/

import Ijson.Numerals

namespace Ijson

/-- The four bytes of an `u32`, as they stand in memory. -/
structure Bytes4 where
  b0 : BitVec 8
  b1 : BitVec 8
  b2 : BitVec 8
  b3 : BitVec 8

namespace Bytes4

/-- `(char*)&value`: the lowest byte first. -/
def memory (value : BitVec 32) : Bytes4 where
  b0 := value.extractLsb' 0 8
  b1 := value.extractLsb' 8 8
  b2 := value.extractLsb' 16 8
  b3 := value.extractLsb' 24 8

/-- The `u32` with these bytes in memory. -/
def value (b4 : Bytes4) : BitVec 32 := b4.b3 ++ b4.b2 ++ b4.b1 ++ b4.b0

/-- The two exchanges of the constructor. -/
def exchange (b4 : Bytes4) : Bytes4 :=
  let t := b4.b0
  let b4 := { b4 with b0 := b4.b3 }
  let b4 := { b4 with b3 := t }
  let t := b4.b1
  let b4 := { b4 with b1 := b4.b2 }
  { b4 with b2 := t }

end Bytes4

structure NetFilter where
  ip : BitVec 32
  mask : BitVec 32

namespace NetFilter

/-- `_mask = _mask << 1`, so many times. -/
def shift : Nat → BitVec 32 → BitVec 32
  | 0, mask => mask
  | bits + 1, mask => shift bits (mask <<< 1)

/-- The constructor.  `inet_addr` belongs to the C library. -/
def create (inetAddr : Bytes → BitVec 32) (mask : Bytes) : Except Exc NetFilter := do
  let (ip, mask, bits) ←
    match mask.findIdx? (· = 47) with
    | none => pure ([], mask, 32)
    | some i => do
        let bits ← atoi (mask.drop (i + 1))
        pure (mask.take i, mask.drop (i + 1), i32 bits)
  let ip := inetAddr (if ip.isEmpty then mask else ip)
  let bits := 32 - bits
  let mask := (Bytes4.memory (shift bits.toNat (BitVec.allOnes 32))).exchange.value
  return { ip := ip &&& mask, mask := mask }

/-- `match`. -/
def accepts (filter : NetFilter) (ip : BitVec 32) : Bool := ip &&& filter.mask = filter.ip

/-- The loop of `_valid_ip`. -/
def anyAccepts : List NetFilter → BitVec 32 → Bool
  | [], _ => false
  | filter :: rest, ip => if filter.accepts ip then true else anyAccepts rest ip

/-- `Server::_valid_ip`. -/
def validIp (netFilter : List NetFilter) (ip : BitVec 32) : Bool :=
  if netFilter.isEmpty then true else anyAccepts netFilter ip

end NetFilter

/-! ### Blocks of addresses -/

namespace Bytes4

/-- The number of an address in dotted order: the first octet is the highest. -/
def number (octets : Bytes4) : BitVec 32 := octets.b0 ++ octets.b1 ++ octets.b2 ++ octets.b3

/-- The address in dotted order, as text. -/
def dotted (octets : Bytes4) : Bytes :=
  decimalText octets.b0.toNat ++ ascii "." ++ decimalText octets.b1.toNat ++ ascii "." ++
    decimalText octets.b2.toNat ++ ascii "." ++ decimalText octets.b3.toNat

end Bytes4

/-- An address with the length of the part that counts; without a length all of it does. -/
structure Cidr where
  octets : Bytes4
  bits : Nat
  small : bits ≤ 32
  digits : Option Bytes
  meant : match digits with
    | none => bits = 32
    | some digits => atoi digits = .ok bits

namespace Cidr

def text (cidr : Cidr) : Bytes :=
  match cidr.digits with
  | none => cidr.octets.dotted
  | some digits => cidr.octets.dotted ++ 47 :: digits

/-- The address begins with the same bits. -/
def Covers (cidr : Cidr) (address : Bytes4) : Prop :=
  address.number.toNat / 2 ^ (32 - cidr.bits) = cidr.octets.number.toNat / 2 ^ (32 - cidr.bits)

end Cidr

/-! ### Masks -/

theorem getLsbD_mask {w : Nat} (x : BitVec w) (k i : Nat) :
    (x &&& BitVec.allOnes w <<< k).getLsbD i = (x.getLsbD i && decide (k ≤ i)) := by
  rw [BitVec.getLsbD_and, BitVec.getLsbD_shiftLeft, BitVec.getLsbD_allOnes]
  by_cases inside : i < w
  · have shifted : i - k < w := Nat.lt_of_le_of_lt (Nat.sub_le i k) inside
    have flip : (!decide (i < k)) = decide (k ≤ i) := by
      rw [← decide_not]
      exact decide_eq_decide.mpr Nat.not_lt
    simp only [inside, shifted, flip, decide_true, Bool.true_and, Bool.and_true]
  · simp [inside, BitVec.getLsbD_of_ge x i (Nat.le_of_not_lt inside)]

/-- Under the mask two words are the same when they are the same without the last bits. -/
theorem and_mask_iff {w : Nat} (x y : BitVec w) (k : Nat) :
    x &&& BitVec.allOnes w <<< k = y &&& BitVec.allOnes w <<< k ↔ x >>> k = y >>> k := by
  constructor
  · intro same
    apply BitVec.eq_of_getLsbD_eq
    intro i _
    have bit := congrArg (fun v : BitVec w => v.getLsbD (k + i)) same
    simp only [getLsbD_mask, Nat.le_add_right, decide_true, Bool.and_true] at bit
    rw [BitVec.getLsbD_ushiftRight, BitVec.getLsbD_ushiftRight, bit]
  · intro same
    apply BitVec.eq_of_getLsbD_eq
    intro i _
    rw [getLsbD_mask, getLsbD_mask]
    by_cases high : k ≤ i
    · have bit := congrArg (fun v : BitVec w => v.getLsbD (i - k)) same
      simp only [BitVec.getLsbD_ushiftRight, Nat.add_sub_cancel' high] at bit
      rw [bit]
    · rw [decide_eq_false high, Bool.and_false, Bool.and_false]

theorem shift_eq (bits : Nat) (mask : BitVec 32) : NetFilter.shift bits mask = mask <<< bits := by
  induction bits generalizing mask with
  | zero => simp [NetFilter.shift]
  | succ bits ih =>
      rw [NetFilter.shift, ih, ← BitVec.shiftLeft_add, Nat.add_comm]

/-! ### The exchange of the bytes -/

namespace Bytes4

/-- The word with its bytes in the other order. -/
def reverse (word : BitVec 32) : BitVec 32 := (memory word).exchange.value

theorem getLsbD_bytes (b3 b2 b1 b0 : BitVec 8) {i : Nat} (inside : i < 32) :
    (b3 ++ b2 ++ b1 ++ b0).getLsbD i =
      (if i / 8 = 0 then b0 else if i / 8 = 1 then b1 else if i / 8 = 2 then b2 else b3).getLsbD (i % 8) := by
  simp only [BitVec.getLsbD_append]
  by_cases first : i < 8
  · rw [if_pos first, if_pos (by omega), Nat.mod_eq_of_lt first]
  · by_cases second : i - 8 < 8
    · rw [if_neg first, if_pos second, if_neg (by omega), if_pos (by omega)]
      congr 1
      omega
    · by_cases third : i - 8 - 8 < 8
      · rw [if_neg first, if_neg second, if_pos third, if_neg (by omega), if_neg (by omega), if_pos (by omega)]
        congr 1
        omega
      · rw [if_neg first, if_neg second, if_neg third, if_neg (by omega), if_neg (by omega), if_neg (by omega)]
        congr 1
        omega

theorem getLsbD_reverse (word : BitVec 32) {i : Nat} (inside : i < 32) :
    (reverse word).getLsbD i = word.getLsbD ((3 - i / 8) * 8 + i % 8) := by
  have digit : i % 8 < 8 := Nat.mod_lt i (by decide)
  have extract : ∀ k, (word.extractLsb' k 8).getLsbD (i % 8) = word.getLsbD (k + i % 8) := by
    intro k
    rw [BitVec.getLsbD_extractLsb', decide_eq_true digit, Bool.true_and]
  have bytes : reverse word =
      word.extractLsb' 0 8 ++ word.extractLsb' 8 8 ++ word.extractLsb' 16 8 ++ word.extractLsb' 24 8 := rfl
  rw [bytes, getLsbD_bytes _ _ _ _ inside]
  have places : i / 8 = 0 ∨ i / 8 = 1 ∨ i / 8 = 2 ∨ i / 8 = 3 := by omega
  rcases places with place | place | place | place
  · rw [if_pos place, place, extract]
  · rw [if_neg (by omega), if_pos place, place, extract]
  · rw [if_neg (by omega), if_neg (by omega), if_pos place, place, extract]
  · rw [if_neg (by omega), if_neg (by omega), if_neg (by omega), place, extract]

theorem reverse_and (x y : BitVec 32) : reverse (x &&& y) = reverse x &&& reverse y := by
  apply BitVec.eq_of_getLsbD_eq
  intro i inside
  rw [BitVec.getLsbD_and, getLsbD_reverse _ inside, getLsbD_reverse _ inside, getLsbD_reverse _ inside,
    BitVec.getLsbD_and]

theorem reverse_reverse (word : BitVec 32) : reverse (reverse word) = word := by
  apply BitVec.eq_of_getLsbD_eq
  intro i inside
  rw [getLsbD_reverse _ inside, getLsbD_reverse _ (by omega)]
  congr 1
  omega

/-- Network byte order is the dotted order with its bytes exchanged. -/
theorem value_eq_reverse (octets : Bytes4) : octets.value = reverse octets.number := by
  apply BitVec.eq_of_getLsbD_eq
  intro i inside
  rw [getLsbD_reverse _ inside, value, number, getLsbD_bytes _ _ _ _ inside, getLsbD_bytes _ _ _ _ (by omega)]
  have place : ((3 - i / 8) * 8 + i % 8) / 8 = 3 - i / 8 := by omega
  have digit : ((3 - i / 8) * 8 + i % 8) % 8 = i % 8 := by omega
  rw [place, digit]
  have places : i / 8 = 0 ∨ i / 8 = 1 ∨ i / 8 = 2 ∨ i / 8 = 3 := by omega
  rcases places with here | here | here | here <;> rw [here] <;> rfl

end Bytes4

/-! ### Filters -/

namespace Cidr

variable (cidr : Cidr)

theorem dotted_no_slash (octets : Bytes4) : ∀ a ∈ octets.dotted, a ≠ 47 := by
  have digits : ∀ n < 256, ∀ a ∈ decimalText ((n : Nat) : Int), a ≠ 47 := by
    intro n small a member same
    rw [← addNumber_decimal (by omega) (by omega)] at member
    have digit := addNumber_digits n a member
    rw [same] at digit
    cases digit
  intro a member
  simp only [Bytes4.dotted, List.mem_append] at member
  have dot : ∀ a ∈ ascii ".", a ≠ 47 := forall_of_all (by decide)
  rcases member with (((((one | d) | two) | d) | three) | d) | four
  · exact digits _ octets.b0.isLt a one
  · exact dot a d
  · exact digits _ octets.b1.isLt a two
  · exact dot a d
  · exact digits _ octets.b2.isLt a three
  · exact dot a d
  · exact digits _ octets.b3.isLt a four

theorem dotted_nonempty (octets : Bytes4) : octets.dotted.isEmpty = false := by
  rw [Bytes4.dotted, List.isEmpty_eq_false_iff]
  exact List.append_ne_nil_of_left_ne_nil (List.append_ne_nil_of_right_ne_nil _ (by decide)) _

/-- The mask of the constructor, in network byte order. -/
def maskOf : BitVec 32 := Bytes4.reverse (BitVec.allOnes 32 <<< (32 - cidr.bits))

def filter : NetFilter := { ip := cidr.octets.value &&& cidr.maskOf, mask := cidr.maskOf }

theorem create_eq {inetAddr : Bytes → BitVec 32} (network : inetAddr cidr.octets.dotted = cidr.octets.value) :
    NetFilter.create inetAddr cidr.text = .ok cidr.filter := by
  have noSlash : cidr.octets.dotted.findIdx? (· = 47) = none := by
    rw [List.findIdx?_eq_none_iff]
    intro a member
    exact decide_eq_false (dotted_no_slash cidr.octets a member)
  have shifted : ∀ bits : Nat, bits ≤ 32 →
      (Bytes4.memory (NetFilter.shift (32 - (bits : Int)).toNat (BitVec.allOnes 32))).exchange.value =
        Bytes4.reverse (BitVec.allOnes 32 <<< (32 - bits)) := by
    intro bits small
    have places : (32 - (bits : Int)).toNat = 32 - bits := by omega
    rw [places, shift_eq]
    rfl
  obtain ⟨octets, bits, small, digits, meant⟩ := cidr
  cases digits with
  | none =>
      obtain rfl : bits = 32 := meant
      rw [NetFilter.create, text, noSlash]
      simp only [pure, Except.pure, bind, Except.bind, List.isEmpty_nil, if_true]
      rw [network, filter, maskOf, ← shifted 32 small]
      rfl
  | some digits =>
      have read : atoi digits = .ok bits := meant
      have found : (octets.dotted ++ 47 :: digits).findIdx? (· = 47) = some octets.dotted.length := by
        rw [List.findIdx?_append, noSlash, List.findIdx?_cons]
        simp
      have behind : (octets.dotted ++ 47 :: digits).drop (octets.dotted.length + 1) = digits := by
        rw [← List.drop_drop, List.drop_left]
        rfl
      have front : (octets.dotted ++ 47 :: digits).take octets.dotted.length = octets.dotted := List.take_left
      have whole : i32 (bits : Int) = bits := i32_of_small (by omega)
      rw [NetFilter.create, text]
      simp only [found, behind, front, read, whole, pure, Except.pure, bind, Except.bind, dotted_nonempty,
        Bool.false_eq_true, if_false]
      rw [network, filter, maskOf, ← shifted bits small]

/-- The filter of a block accepts its addresses and no others. -/
theorem accepts_iff (address : Bytes4) : cidr.filter.accepts address.value = true ↔ cidr.Covers address := by
  rw [NetFilter.accepts, decide_eq_true_eq, filter, maskOf, Bytes4.value_eq_reverse, Bytes4.value_eq_reverse,
    ← Bytes4.reverse_and, ← Bytes4.reverse_and]
  have injective : ∀ x y, Bytes4.reverse x = Bytes4.reverse y ↔ x = y := by
    intro x y
    constructor
    · intro same
      rw [← Bytes4.reverse_reverse x, same, Bytes4.reverse_reverse]
    · intro same
      rw [same]
  rw [injective, and_mask_iff, Covers, ← BitVec.toNat_inj, BitVec.toNat_ushiftRight, BitVec.toNat_ushiftRight,
    Nat.shiftRight_eq_div_pow, Nat.shiftRight_eq_div_pow]

end Cidr

theorem NetFilter.anyAccepts_iff (filters : List NetFilter) (ip : BitVec 32) :
    anyAccepts filters ip = true ↔ ∃ filter ∈ filters, filter.accepts ip = true := by
  induction filters with
  | nil => simp [anyAccepts]
  | cons filter rest ih =>
      rw [anyAccepts]
      by_cases here : filter.accepts ip = true
      · rw [if_pos here]
        simp [here]
      · rw [if_neg here, ih]
        simp [here]

/-- A configured filter accepts the addresses whose first bits are those of its own address, and
`_valid_ip` those that some filter accepts, or all when there is none. -/
theorem validIp_iff {inetAddr : Bytes → BitVec 32} {cidrs : List Cidr}
    (network : ∀ cidr ∈ cidrs, inetAddr cidr.octets.dotted = cidr.octets.value) :
    ∃ filters, cidrs.mapM (fun cidr => NetFilter.create inetAddr cidr.text) = .ok filters ∧
      (∀ cidr ∈ cidrs, ∃ filter, NetFilter.create inetAddr cidr.text = .ok filter ∧
        ∀ address : Bytes4, filter.accepts address.value = true ↔ cidr.Covers address) ∧
      ∀ address : Bytes4, NetFilter.validIp filters address.value = true ↔
        cidrs = [] ∨ ∃ cidr ∈ cidrs, cidr.Covers address := by
  have created : cidrs.mapM (fun cidr => NetFilter.create inetAddr cidr.text) = .ok (cidrs.map Cidr.filter) := by
    induction cidrs with
    | nil => rfl
    | cons cidr rest ih =>
        rw [List.mapM_cons, cidr.create_eq (network cidr List.mem_cons_self),
          ih fun later member => network later (List.mem_cons_of_mem cidr member)]
        rfl
  refine ⟨cidrs.map Cidr.filter, created, ?_, ?_⟩
  · intro cidr member
    exact ⟨cidr.filter, cidr.create_eq (network cidr member), cidr.accepts_iff⟩
  · intro address
    rw [NetFilter.validIp, List.isEmpty_map]
    by_cases nothing : cidrs = []
    · rw [nothing]
      simp
    · rw [List.isEmpty_eq_false_iff.mpr nothing, if_neg Bool.false_ne_true, NetFilter.anyAccepts_iff]
      constructor
      · rintro ⟨_, member, accepted⟩
        obtain ⟨cidr, configured, rfl⟩ := List.mem_map.mp member
        exact Or.inr ⟨cidr, configured, (cidr.accepts_iff address).mp accepted⟩
      · intro either
        obtain ⟨cidr, configured, covered⟩ := either.resolve_left nothing
        exact ⟨cidr.filter, List.mem_map_of_mem configured, (cidr.accepts_iff address).mpr covered⟩

/-- 172.16.9.1/12. -/
def privateBlock : Cidr where
  octets := ⟨172, 16, 9, 1⟩
  bits := 12
  small := by decide
  digits := some (ascii "12")
  meant := (by decide : atoi (ascii "12") = .ok 12)

/-- `inet_addr` for this address; `INADDR_NONE` for any other text. -/
def privateAddr (text : Bytes) : BitVec 32 :=
  if text = privateBlock.octets.dotted then privateBlock.octets.value else BitVec.allOnes 32

theorem validIp_iff_private :
    ∃ filters, [privateBlock].mapM (fun cidr => NetFilter.create privateAddr cidr.text) = .ok filters ∧
      (∀ cidr ∈ [privateBlock], ∃ filter, NetFilter.create privateAddr cidr.text = .ok filter ∧
        ∀ address : Bytes4, filter.accepts address.value = true ↔ cidr.Covers address) ∧
      ∀ address : Bytes4, NetFilter.validIp filters address.value = true ↔
        [privateBlock] = [] ∨ ∃ cidr ∈ [privateBlock], cidr.Covers address :=
  validIp_iff fun cidr member => by
    rw [List.mem_singleton.mp member, privateAddr, if_pos rfl]

end Ijson
