/-
A `Buffer` as a block of memory.

Only `Connect::buffer` is modelled at this level: views into it outlive
`clear`, and `on_recv` appends parts of it to itself.  `mem` holds the bytes
written so far, of which the first `size` are the contents; `block` counts the
reallocations, after which every earlier view dangles.
-/

import Ijson.Slice

namespace Ijson

structure Buffer where
  mem : Bytes
  size : Nat
  cap : Nat
  block : Nat
  deriving DecidableEq

namespace Buffer

def empty : Buffer :=
  { mem := []
    size := 0
    cap := 0
    block := 0 }

/-- The loop of `_get_cap`; a step adds at least 16, which bounds the fuel. -/
def getCapLoop (size : Nat) : Nat → Nat → Nat → Nat
  | 0, cap, _ => cap
  | fuel + 1, cap, step =>
      if cap < size then getCapLoop size fuel (cap + step) (if step < 4096 then step * 2 else step)
      else cap

def getCap (size : Nat) : Nat := getCapLoop size size 16 16

def contents (buffer : Buffer) : Bytes := buffer.mem.take buffer.size

/-- `resize(capacity)`. -/
def resize (buffer : Buffer) (capacity : Nat) : Buffer :=
  if buffer.block = 0 ∨ buffer.cap < capacity then
    { buffer with cap := getCap capacity, block := buffer.block + 1 }
  else buffer

/-- `add(buf, size)` with a source outside this buffer. -/
def add (buffer : Buffer) (data : Bytes) : Buffer :=
  let grown := buffer.resize (buffer.size + data.length)
  { grown with
    mem := grown.mem.take grown.size ++ data ++ grown.mem.drop (grown.size + data.length)
    size := grown.size + data.length }

/-- `add` of a part of this buffer: the source dangles after a reallocation. -/
def addOwn (buffer : Buffer) (data : Bytes) : Option Buffer :=
  let added := buffer.add data
  if added.block = buffer.block then some added else none

def clear (buffer : Buffer) : Buffer := { buffer with size := 0 }

/-- The invariant of a block: its contents lie inside what was written, and
that inside its capacity. -/
structure Fits (buffer : Buffer) : Prop where
  size : buffer.size ≤ buffer.mem.length
  mem : buffer.mem.length ≤ buffer.cap
  block : buffer.mem ≠ [] → buffer.block ≠ 0

theorem empty_fits : empty.Fits :=
  { size := Nat.le_refl 0
    mem := Nat.le_refl 0
    block := fun nonempty => absurd rfl nonempty }

theorem le_getCapLoop (size fuel cap step : Nat) (large : 0 < step) (enough : size ≤ cap + fuel) :
    size ≤ getCapLoop size fuel cap step := by
  induction fuel generalizing cap step with
  | zero => exact enough
  | succ fuel ih =>
      rw [getCapLoop]
      by_cases small : cap < size
      · rw [if_pos small]
        apply ih
        · by_cases grows : step < 4096
          · rw [if_pos grows]; omega
          · rw [if_neg grows]; exact large
        · omega
      · rw [if_neg small]
        exact Nat.le_of_not_lt small

theorem le_getCap (size : Nat) : size ≤ getCap size :=
  le_getCapLoop size size 16 16 (by decide) (Nat.le_add_left size 16)

@[simp] theorem resize_size (buffer : Buffer) (capacity : Nat) :
    (buffer.resize capacity).size = buffer.size := by
  unfold resize; split <;> rfl

@[simp] theorem resize_mem (buffer : Buffer) (capacity : Nat) :
    (buffer.resize capacity).mem = buffer.mem := by
  unfold resize; split <;> rfl

theorem le_resize_cap (buffer : Buffer) (capacity : Nat) :
    capacity ≤ (buffer.resize capacity).cap ∧
      (buffer.block ≠ 0 → buffer.cap ≤ (buffer.resize capacity).cap) ∧
      (buffer.resize capacity).block ≠ 0 := by
  unfold resize
  split
  · rename_i grows
    refine ⟨le_getCap capacity, fun allocated => ?_, Nat.succ_ne_zero _⟩
    have room := le_getCap capacity
    cases grows with
    | inl unallocated => exact absurd unallocated allocated
    | inr more => exact Nat.le_trans (Nat.le_of_lt more) room
  · rename_i keeps
    simp only [not_or, Nat.not_lt] at keeps
    exact ⟨keeps.2, fun _ => Nat.le_refl _, keeps.1⟩

theorem contents_length {buffer : Buffer} (fits : buffer.Fits) :
    buffer.contents.length = buffer.size := by
  rw [contents, List.length_take, Nat.min_eq_left fits.size]

theorem add_contents {buffer : Buffer} (fits : buffer.Fits) (data : Bytes) :
    (buffer.add data).contents = buffer.contents ++ data := by
  have inside := fits.size
  simp only [contents, add, resize_size, resize_mem]
  rw [List.append_assoc, List.take_append, List.length_take, Nat.min_eq_left inside,
    Nat.add_sub_cancel_left, List.take_append, Nat.sub_self, List.take_zero, List.take_length,
    List.append_nil, List.take_take, Nat.min_eq_right (Nat.le_add_right _ _)]

theorem add_fits {buffer : Buffer} (fits : buffer.Fits) (data : Bytes) : (buffer.add data).Fits := by
  obtain ⟨room, keeps, allocated⟩ := buffer.le_resize_cap (buffer.size + data.length)
  have inside := fits.size
  have below := fits.mem
  have lengthEq : (buffer.add data).mem.length = max (buffer.size + data.length) buffer.mem.length := by
    simp only [add, resize_size, resize_mem, List.length_append, List.length_take, List.length_drop]
    omega
  refine { size := ?_, mem := ?_, block := fun _ => allocated }
  · rw [lengthEq]
    simp only [add, resize_size]
    exact Nat.le_max_left _ _
  · rw [lengthEq]
    simp only [add]
    cases memEq : buffer.mem with
    | nil =>
        rw [List.length_nil, Nat.max_eq_left (Nat.zero_le _)]
        exact room
    | cons a rest =>
        have kept := keeps (fits.block (by rw [memEq]; exact List.cons_ne_nil a rest))
        rw [← memEq]
        omega

theorem add_block (buffer : Buffer) (data : Bytes) : (buffer.add data).block ≠ 0 :=
  (buffer.le_resize_cap (buffer.size + data.length)).2.2

theorem clear_fits {buffer : Buffer} (fits : buffer.Fits) : buffer.clear.Fits :=
  { size := Nat.zero_le _
    mem := fits.mem
    block := fits.block }

@[simp] theorem clear_contents (buffer : Buffer) : buffer.clear.contents = [] := rfl

@[simp] theorem clear_size (buffer : Buffer) : buffer.clear.size = 0 := rfl

/-- Appending to a cleared block what fits into it does not move the block. -/
theorem addOwn_clear {buffer : Buffer} (fits : buffer.Fits) (allocated : buffer.block ≠ 0)
    {data : Bytes} (small : data.length ≤ buffer.size) :
    ∃ added, buffer.clear.addOwn data = some added ∧ added.contents = data ∧ added.Fits := by
  have below := fits.size
  have within := fits.mem
  have stays : (buffer.clear.add data).block = buffer.clear.block := by
    change (buffer.clear.resize (buffer.clear.size + data.length)).block = buffer.clear.block
    rw [resize, if_neg]
    rintro (unallocated | more)
    · exact allocated unallocated
    · simp only [clear] at more
      omega
  refine ⟨buffer.clear.add data, ?_, ?_, add_fits (clear_fits fits) data⟩
  · rw [addOwn, if_pos stays]
  · rw [add_contents (clear_fits fits), clear_contents, List.nil_append]

theorem addOwn_contents {buffer added : Buffer} (fits : buffer.Fits) {data : Bytes}
    (addedEq : buffer.addOwn data = some added) : added.contents = buffer.contents ++ data := by
  simp only [addOwn] at addedEq
  split at addedEq
  · rw [← Option.some.inj addedEq, add_contents fits]
  · cases addedEq

end Buffer

end Ijson
