/-
Every operation of a `Buffer`, in any order.

`json::escape` makes its text longer with `resize(0, size)`, which grows the
size and never the block; the other operations ask for the capacity they need.
Capacities are of type `int`.
-/

import Ijson.Buffer
import Ijson.Details
import Ijson.Unescape

namespace Ijson

namespace Buffer

/-! ### The operations -/

/-- `resize(capacity, size)`. -/
def resizeTo (buffer : Buffer) (capacity size : Nat) : Buffer :=
  { buffer.resize capacity with size := size }

/-- A byte of `add(const char*)`, which asks for more room only at the end of it. -/
def addByte (buffer : Buffer) (a : UInt8) : Buffer :=
  let grown := if buffer.cap ≤ buffer.size then buffer.resize (buffer.size + 1) else buffer
  { grown with
    mem := grown.mem.take grown.size ++ a :: grown.mem.drop (grown.size + 1)
    size := grown.size + 1 }

/-- `add(const char*)`. -/
def addText (buffer : Buffer) (text : Bytes) : Buffer := text.foldl addByte buffer

/-- `add_number`. -/
def addNumber (buffer : Buffer) (n : Int) : Buffer :=
  (buffer.resize (buffer.size + 20)).add (Ijson.addNumber n)

/-- `add_hex`. -/
def addHex (buffer : Buffer) (n : Nat) : Buffer := buffer.add (Ijson.addHex n)

/-- `remove_left`. -/
def removeLeft (buffer : Buffer) (n : Int) : Buffer :=
  if n ≤ 0 then buffer
  else if buffer.size ≤ n.toNat then buffer.clear
  else
    let size := buffer.size - n.toNat
    { buffer with
      mem := (buffer.mem.drop n.toNat).take size ++ buffer.mem.drop size
      size := size }

/-- `a.move(b)`: the blocks are swapped, and `b` is empty. -/
def move (a b : Buffer) : Buffer × Buffer := ({ b with size := b.size }, { a with size := 0 })

/-- Write over the beginning of the block. -/
def overwrite (buffer : Buffer) (text : Bytes) : Buffer :=
  { buffer with mem := text ++ buffer.mem.drop text.length }

/-- The quotes from `start` on. -/
def quotes (buffer : Buffer) (start : Nat) : Nat := (buffer.contents.drop start).count Json.quote

/-- `json::escape`.  The bytes behind the contents are those written earlier or garbage. -/
def escape (garbage : Nat → UInt8) (buffer : Buffer) (start : Nat) : Option Buffer :=
  if buffer.quotes start = 0 then some buffer
  else
    (escapeAt (fun k => (buffer.mem[k]?).getD (garbage k)) start buffer.contents).map
      (buffer.resizeTo 0 (buffer.size + buffer.quotes start)).overwrite

/-- `json::unescape`; an exception leaves the size. -/
def unescape (buffer : Buffer) (start : Nat) : Option Buffer :=
  match InPlace.unescape start ⟨buffer.contents, []⟩ with
  | .returned edited _ => some ((buffer.resizeTo 0 edited.buffer.length).overwrite edited.buffer)
  | .thrown edited _ => some (buffer.overwrite edited.buffer)
  | .fault => none

/-- An operation on one buffer. -/
inductive Edit where
  | create
  | createSized (size : Nat)
  | createText (text : Bytes)
  | resize (capacity : Nat)
  | resizeTo (capacity size : Nat)
  | add (data : Bytes)
  | addText (text : Bytes)
  | addNumber (n : Int)
  | addHex (n : Nat)
  | set (data : Bytes)
  | setText (text : Bytes)
  | clear
  | removeLeft (n : Int)
  | escape (start : Nat)
  | unescape (start : Nat)

/-- A constructor makes the buffer anew; `none` is a write outside of the text. -/
def Edit.apply (garbage : Nat → UInt8) (buffer : Buffer) : Edit → Option Buffer
  | .create => some empty
  | .createSized size => some (empty.resize size)
  | .createText text => some (empty.addText text)
  | .resize capacity => some (buffer.resize capacity)
  | .resizeTo capacity size => some (buffer.resizeTo capacity size)
  | .add data => some (buffer.add data)
  | .addText text => some (buffer.addText text)
  | .addNumber n => some (buffer.addNumber n)
  | .addHex n => some (buffer.addHex n)
  | .set data => some (buffer.clear.add data)
  | .setText text => some (buffer.clear.addText text)
  | .clear => some buffer.clear
  | .removeLeft n => some (buffer.removeLeft n)
  | .escape start => buffer.escape garbage start
  | .unescape start => buffer.unescape start

/-- Buffers reached by operations that all meet `allowed`. -/
inductive Made (allowed : Buffer → Edit → Prop) (garbage : Nat → UInt8) :
    (Nat → Buffer) → Prop where
  | new : Made allowed garbage fun _ => empty
  | edit {buffers : Nat → Buffer} {after : Buffer} (i : Nat) (edit : Edit)
      (made : Made allowed garbage buffers) (meets : allowed (buffers i) edit)
      (returns : edit.apply garbage (buffers i) = some after) :
      Made allowed garbage (Function.update buffers i after)
  | move {buffers : Nat → Buffer} (i j : Nat) (apart : i ≠ j) (made : Made allowed garbage buffers) :
      Made allowed garbage
        (Function.update (Function.update buffers i ((buffers i).move (buffers j)).1) j
          ((buffers i).move (buffers j)).2)

/-- What is to hold of a buffer at all times.  `mem` are the bytes written so far, so
every write has been below the capacity, which is an `int`. -/
structure Within (buffer : Buffer) : Prop where
  size : buffer.size ≤ buffer.cap
  writes : buffer.mem.length ≤ buffer.cap
  capacity : buffer.cap < 2 ^ 31

/-- The capacity that a `resize` computes, if it does, is an `int`. -/
def Grants (buffer : Buffer) (capacity : Nat) : Prop :=
  buffer.block ≠ 0 ∧ capacity ≤ buffer.cap ∨ getCap capacity < 2 ^ 31

/-- The arguments are such as the program passes: a `resize` with a size makes the text
shorter, a number is an `i64`, and a text is edited from a place inside it. -/
def Edit.Passed (buffer : Buffer) : Edit → Prop
  | .resizeTo _ size => size ≤ buffer.size
  | .addNumber n => -2 ^ 63 ≤ n ∧ n < 2 ^ 63
  | .escape start | .unescape start => start ≤ buffer.size
  | _ => True

/-- The capacities fit an `int`, and `escape` finds room for its backslashes. -/
def Edit.HasRoom (buffer : Buffer) : Edit → Prop
  | .create | .clear | .removeLeft _ | .unescape _ => True
  | .createSized size => empty.Grants size
  | .createText text => empty.Grants text.length
  | .resize capacity | .resizeTo capacity _ => buffer.Grants capacity
  | .add data => buffer.Grants (buffer.size + data.length)
  | .addText text => buffer.Grants (buffer.size + text.length)
  | .addNumber _ => buffer.Grants (buffer.size + 20)
  | .addHex n => buffer.Grants (buffer.size + (Ijson.addHex n).length)
  | .set data => buffer.Grants data.length
  | .setText text => buffer.Grants text.length
  | .escape start =>
      buffer.quotes start = 0 ∨ buffer.size + buffer.quotes start ≤ buffer.cap

/-- An operation of the program that finds the room it needs. -/
def Edit.Safe (buffer : Buffer) (edit : Edit) : Prop := edit.Passed buffer ∧ edit.HasRoom buffer

/-! ### Capacities -/

theorem le_getCapLoop_start (size fuel cap step : Nat) : cap ≤ getCapLoop size fuel cap step := by
  induction fuel generalizing cap step with
  | zero => exact Nat.le_refl _
  | succ fuel ih =>
      rw [getCapLoop]
      split
      · exact (Nat.le_add_right _ _).trans (ih _ _)
      · exact Nat.le_refl _

theorem getCapLoop_mono {small large : Nat} (le : small ≤ large) (fuel more cap step : Nat)
    (grows : 0 < step) (enough : large ≤ cap + more) :
    getCapLoop small fuel cap step ≤ getCapLoop large more cap step := by
  induction fuel generalizing more cap step with
  | zero => exact le_getCapLoop_start _ _ _ _
  | succ fuel ih =>
      by_cases below : cap < small
      · cases more with
        | zero => omega
        | succ more =>
            have wider : 0 < if step < 4096 then step * 2 else step := by split <;> omega
            rw [getCapLoop, getCapLoop, if_pos below, if_pos (show cap < large by omega)]
            exact ih more _ _ wider (by omega)
      · rw [getCapLoop, if_neg below]
        exact le_getCapLoop_start _ _ _ _

/-- A larger request computes no smaller capacity. -/
theorem getCap_mono {small large : Nat} (le : small ≤ large) : getCap small ≤ getCap large :=
  getCapLoop_mono le _ _ _ _ (by decide) (by omega)

/-! ### What each operation keeps -/

/-- What carries `Within` from one operation to the next. -/
structure Sound (buffer : Buffer) : Prop where
  fits : buffer.Fits
  unallocated : buffer.block = 0 → buffer.cap = 0
  capacity : buffer.cap < 2 ^ 31

variable {buffer : Buffer}

theorem empty_sound : empty.Sound := ⟨empty_fits, fun _ => rfl, by decide⟩

theorem Sound.within (sound : Sound buffer) : Within buffer :=
  ⟨sound.fits.size.trans sound.fits.mem, sound.fits.mem, sound.capacity⟩

theorem Grants.less {capacity less : Nat} (grants : buffer.Grants capacity) (le : less ≤ capacity) :
    buffer.Grants less := by
  rcases grants with ⟨allocated, room⟩ | fits
  · exact .inl ⟨allocated, le.trans room⟩
  · exact .inr ((getCap_mono le).trans_lt fits)

theorem resize_cap_int {capacity : Nat} (small : buffer.cap < 2 ^ 31)
    (grants : buffer.Grants capacity) : (buffer.resize capacity).cap < 2 ^ 31 := by
  unfold resize
  split
  · rename_i grows
    rcases grants with ⟨allocated, room⟩ | fits
    · rcases grows with unallocated | more
      · exact absurd unallocated allocated
      · omega
    · exact fits
  · exact small

theorem Sound.resize (sound : Sound buffer) {capacity : Nat} (grants : buffer.Grants capacity) :
    Sound (buffer.resize capacity) := by
  obtain ⟨_, keeps, allocated⟩ := buffer.le_resize_cap capacity
  refine ⟨⟨?_, ?_, fun _ => allocated⟩, fun zero => absurd zero allocated,
    resize_cap_int sound.capacity grants⟩
  · rw [resize_size, resize_mem]
    exact sound.fits.size
  · rw [resize_mem]
    by_cases zero : buffer.block = 0
    · have nothing := sound.fits.mem
      rw [sound.unallocated zero] at nothing
      exact nothing.trans (Nat.zero_le _)
    · exact sound.fits.mem.trans (keeps zero)

theorem Sound.add (sound : Sound buffer) {data : Bytes}
    (grants : buffer.Grants (buffer.size + data.length)) : Sound (buffer.add data) :=
  ⟨add_fits sound.fits data, fun zero => absurd zero (buffer.add_block data),
    resize_cap_int sound.capacity grants⟩

theorem Sound.shorter (sound : Sound buffer) {size : Nat} (less : size ≤ buffer.size) :
    Sound { buffer with size := size } :=
  ⟨⟨less.trans sound.fits.size, sound.fits.mem, sound.fits.block⟩, sound.unallocated,
    sound.capacity⟩

theorem overwrite_length (buffer : Buffer) (text : Bytes) :
    (buffer.overwrite text).mem.length = text.length + (buffer.mem.length - text.length) := by
  rw [overwrite, List.length_append, List.length_drop]

theorem Sound.overwrite (sound : Sound buffer) {text : Bytes} (short : text.length ≤ buffer.cap) :
    Sound (buffer.overwrite text) := by
  have size := sound.fits.size
  have mem := sound.fits.mem
  refine ⟨⟨?_, ?_, ?_⟩, sound.unallocated, sound.capacity⟩
  · rw [overwrite_length]
    simp only [Buffer.overwrite]
    omega
  · rw [overwrite_length]
    simp only [Buffer.overwrite]
    omega
  · intro written zero
    have nothing : buffer.mem.length = 0 ∧ text.length = 0 := by
      have capacity := sound.unallocated zero
      omega
    apply written
    simp [Buffer.overwrite, List.eq_nil_of_length_eq_zero nothing.1,
      List.eq_nil_of_length_eq_zero nothing.2]

theorem Grants.addByte {capacity : Nat} (grants : buffer.Grants capacity) (a : UInt8) :
    (buffer.addByte a).Grants capacity := by
  rcases grants with ⟨allocated, room⟩ | fits
  · refine .inl ?_
    unfold Buffer.addByte
    by_cases full : buffer.cap ≤ buffer.size
    · obtain ⟨_, keeps, still⟩ := buffer.le_resize_cap (buffer.size + 1)
      simp only [if_pos full]
      exact ⟨still, room.trans (keeps allocated)⟩
    · simp only [if_neg full]
      exact ⟨allocated, room⟩
  · exact .inr fits

/-- One byte more, where the request for it is granted. -/
theorem Sound.addByte (sound : Sound buffer) (a : UInt8)
    (grants : buffer.Grants (buffer.size + 1)) :
    Sound (buffer.addByte a) ∧ (buffer.addByte a).size = buffer.size + 1 := by
  have grown : ∀ wide : Buffer, Sound wide → wide.size + 1 ≤ wide.cap →
      Sound { wide with
        mem := wide.mem.take wide.size ++ a :: wide.mem.drop (wide.size + 1)
        size := wide.size + 1 } := by
    intro wide wideSound room
    have size := wideSound.fits.size
    have mem := wideSound.fits.mem
    refine ⟨⟨?_, ?_, fun _ zero => ?_⟩, wideSound.unallocated, wideSound.capacity⟩
    · simp only [List.length_append, List.length_take, List.length_cons, List.length_drop]
      omega
    · simp only [List.length_append, List.length_take, List.length_cons, List.length_drop]
      omega
    · have capacity := wideSound.unallocated zero
      omega
  unfold Buffer.addByte
  by_cases full : buffer.cap ≤ buffer.size
  · simp only [if_pos full]
    refine ⟨grown _ (sound.resize grants) ?_, by rw [resize_size]⟩
    rw [resize_size]
    exact (buffer.le_resize_cap (buffer.size + 1)).1
  · simp only [if_neg full]
    exact ⟨grown buffer sound (by omega), trivial⟩

theorem Sound.addText (sound : Sound buffer) {text : Bytes}
    (grants : buffer.Grants (buffer.size + text.length)) : Sound (buffer.addText text) := by
  induction text generalizing buffer with
  | nil => exact sound
  | cons a rest ih =>
      rw [List.length_cons] at grants
      obtain ⟨next, size⟩ := sound.addByte a (grants.less (by omega))
      refine ih next ?_
      rw [size, Nat.add_right_comm, Nat.add_assoc]
      exact grants.addByte a

theorem addNumber_length {n : Int} (low : -2 ^ 63 ≤ n) (high : n < 2 ^ 63) :
    (Ijson.addNumber n).length ≤ 20 := by
  have digits := (number_fits low high).2
  rw [← numberLoop_emit] at digits
  unfold Ijson.addNumber
  by_cases zero : n = 0
  · rw [if_pos zero]
    decide
  · rw [if_neg zero]
    by_cases negative : n < 0
    · rw [if_pos negative] at digits ⊢
      rw [List.length_append]
      have sign : (ascii "-").length = 1 := by decide
      omega
    · rw [if_neg negative] at digits ⊢
      omega

theorem Sound.addNumber (sound : Sound buffer) {n : Int}
    (grants : buffer.Grants (buffer.size + 20)) (low : -2 ^ 63 ≤ n) (high : n < 2 ^ 63) :
    Sound (buffer.addNumber n) := by
  have short := addNumber_length low high
  obtain ⟨room, _, allocated⟩ := buffer.le_resize_cap (buffer.size + 20)
  refine (sound.resize grants).add (.inl ⟨allocated, ?_⟩)
  rw [resize_size]
  omega

theorem Sound.removeLeft (sound : Sound buffer) (n : Int) : Sound (buffer.removeLeft n) := by
  unfold Buffer.removeLeft
  split
  · exact sound
  · split
    · exact sound.shorter (Nat.zero_le _)
    · have size := sound.fits.size
      have mem := sound.fits.mem
      have same : ((buffer.mem.drop n.toNat).take (buffer.size - n.toNat) ++
          buffer.mem.drop (buffer.size - n.toNat)).length = buffer.mem.length := by
        simp only [List.length_append, List.length_take, List.length_drop]
        omega
      refine ⟨⟨?_, ?_, fun written => ?_⟩, sound.unallocated, sound.capacity⟩
      · simp only [same]
        omega
      · simp only [same]
        exact mem
      · refine sound.fits.block fun empty => written ?_
        simp [empty]

/-- `escape` makes its text longer by one byte for each quote. -/
theorem escape_length (text : Bytes) :
    (Routine.escape text).length = text.length + text.count Json.quote := by
  induction text with
  | nil => rfl
  | cons a text ih =>
      have unfolded : Routine.escape (a :: text) =
          (if a = Json.quote then [Json.backslash, Json.quote] else [a]) ++ Routine.escape text := rfl
      rw [unfolded, List.length_append, ih, List.length_cons, List.count_cons]
      by_cases isQuote : a = Json.quote
      · simp [isQuote]
        omega
      · simp [isQuote]
        omega

/-- What `escape` returns, whether there is room for it or not. -/
theorem escape_eq (garbage : Nat → UInt8) (fits : buffer.Fits) {start : Nat}
    (inside : start ≤ buffer.size) (some_quotes : buffer.quotes start ≠ 0) :
    ∃ text, buffer.escape garbage start =
        some ((buffer.resizeTo 0 (buffer.size + buffer.quotes start)).overwrite text) ∧
      text.length = buffer.size + buffer.quotes start := by
  have contents := contents_length fits
  have front : (buffer.contents.take start).length = start := by
    rw [List.length_take]
    omega
  have escaped := escapeAt_eq (fun k => (buffer.mem[k]?).getD (garbage k))
    (buffer.contents.take start) (buffer.contents.drop start)
  rw [List.take_append_drop, front] at escaped
  refine ⟨buffer.contents.take start ++ Routine.escape (buffer.contents.drop start), ?_, ?_⟩
  · rw [Buffer.escape, if_neg some_quotes, escaped]
    rfl
  · rw [List.length_append, escape_length, front, List.length_drop, quotes]
    omega

/-- `resize(0, size)` of an allocated buffer moves the end only. -/
theorem resizeTo_zero (allocated : buffer.block ≠ 0) (size : Nat) :
    buffer.resizeTo 0 size = { buffer with size := size } := by
  rw [Buffer.resizeTo, Buffer.resize, if_neg]
  rintro (unallocated | below)
  · exact allocated unallocated
  · exact Nat.not_lt_zero _ below

theorem quotes_allocated (fits : buffer.Fits) {start : Nat} (some_quotes : buffer.quotes start ≠ 0) :
    buffer.block ≠ 0 := by
  refine fits.block fun nothing => some_quotes ?_
  simp [quotes, contents, nothing]

theorem Sound.escape (garbage : Nat → UInt8) (sound : Sound buffer) {start : Nat}
    (inside : start ≤ buffer.size)
    (room : buffer.quotes start = 0 ∨ buffer.size + buffer.quotes start ≤ buffer.cap) :
    ∃ after, buffer.escape garbage start = some after ∧ Sound after := by
  by_cases nothing : buffer.quotes start = 0
  · exact ⟨buffer, by rw [Buffer.escape, if_pos nothing], sound⟩
  · obtain ⟨text, escaped, length⟩ := escape_eq garbage sound.fits inside nothing
    have allocated := quotes_allocated sound.fits nothing
    have wide := room.resolve_left nothing
    have mem := sound.fits.mem
    refine ⟨_, escaped, ?_⟩
    rw [resizeTo_zero allocated]
    refine ⟨⟨?_, ?_, fun _ => allocated⟩, sound.unallocated, sound.capacity⟩
    · rw [overwrite_length]
      simp only [Buffer.overwrite]
      omega
    · rw [overwrite_length]
      simp only [Buffer.overwrite]
      omega

/-- Without room for the backslashes the size passes the capacity. -/
theorem escape_beyond (garbage : Nat → UInt8) (sound : Sound buffer) {start : Nat}
    (inside : start ≤ buffer.size) (some_quotes : buffer.quotes start ≠ 0)
    (tight : buffer.cap < buffer.size + buffer.quotes start) :
    ∃ after, buffer.escape garbage start = some after ∧ after.cap < after.size := by
  obtain ⟨text, escaped, _⟩ := escape_eq garbage sound.fits inside some_quotes
  refine ⟨_, escaped, ?_⟩
  rw [resizeTo_zero (quotes_allocated sound.fits some_quotes)]
  exact tight

end Buffer

namespace Json

/-- The loop of `unescape` writes no more than it reads. -/
theorem unescapeLoop_length (fuel : Nat) (text : Bytes) (escaped : Bool) :
    (unescapeLoop fuel text escaped).1.length ≤ text.length := by
  induction fuel generalizing text escaped with
  | zero => exact Nat.zero_le _
  | succ fuel ih =>
      cases text with
      | nil => exact Nat.zero_le _
      | cons a rest =>
          have later := ih rest
          rw [unescapeLoop]
          split
          · split
            · rename_i long
              have four : 4 ≤ rest.length := by
                simp only [ge_iff_le, Bool.and_eq_true, decide_eq_true_eq] at long
                exact long.2
              split
              · exact Nat.zero_le _
              · rename_i code _
                have short := encode_short code.toNat
                have skipped := ih (rest.drop 4) false
                rw [List.length_drop] at skipped
                simp only [List.length_append, List.length_cons]
                omega
            · exact Nat.succ_le_succ (later false)
          · split
            · exact (later true).trans (Nat.le_succ _)
            · exact Nat.succ_le_succ (later false)

theorem unescape_length (text : Bytes) : (unescape text).1.length ≤ text.length := by
  have short := unescapeLoop_length text.length text false
  unfold unescape
  split
  · rename_i loop
    rw [loop] at short
    exact short
  · rename_i loop
    rw [loop] at short
    simp only at short
    simp only [List.length_append, List.length_drop]
    omega

end Json

namespace Buffer

variable {buffer : Buffer}

theorem Sound.unescape (sound : Sound buffer) {start : Nat} (inside : start ≤ buffer.size) :
    ∃ after, buffer.unescape start = some after ∧ Sound after := by
  have whole := contents_length sound.fits
  have meets := @InPlace.unescape_meets ⟨buffer.contents, []⟩ start (by simp only [whole]; exact inside) rfl
  have shorter : ∀ {edited : InPlace}, InPlace.Edited ⟨buffer.contents, []⟩ start edited →
      edited.buffer.length ≤ buffer.size := by
    intro edited written
    have short := Json.unescape_length (buffer.contents.drop start)
    have text : edited.buffer =
        buffer.contents.take start ++ (Json.unescape (buffer.contents.drop start)).1 := written.buffer
    rw [List.length_drop] at short
    rw [text, List.length_append, List.length_take]
    omega
  unfold Buffer.unescape
  rcases meets.outcome with ⟨edited, _, call, written, _⟩ | ⟨edited, error, call, written, _⟩
  · rw [call]
    have resized := sound.resize (.inr (show getCap 0 < 2 ^ 31 by decide))
    have bound := resized.within.size
    rw [resize_size] at bound
    have less := shorter written
    refine ⟨_, rfl, Sound.overwrite (resized.shorter ?_) (less.trans bound)⟩
    rw [resize_size]
    exact less
  · rw [call]
    exact ⟨_, rfl, sound.overwrite ((shorter written).trans sound.within.size)⟩

/-! ### Runs -/

/-- Each operation within the bounds, and the capacity that `resize` yields. -/
theorem Sound.apply (garbage : Nat → UInt8) (sound : Sound buffer) {edit : Edit}
    (safe : edit.Safe buffer) :
    ∃ after, edit.apply garbage buffer = some after ∧ Sound after ∧
      ∀ capacity, edit = .resize capacity → capacity ≤ after.cap := by
  have other : ∀ {after : Buffer}, Sound after → (∀ capacity, edit ≠ .resize capacity) →
      Sound after ∧ ∀ capacity, edit = .resize capacity → capacity ≤ after.cap :=
    fun good different => ⟨good, fun capacity same => absurd same (different capacity)⟩
  have cleared : Sound buffer.clear := sound.shorter (Nat.zero_le _)
  obtain ⟨passed, room⟩ := safe
  cases edit with
  | create => exact ⟨_, rfl, other empty_sound nofun⟩
  | createSized size => exact ⟨_, rfl, other (empty_sound.resize room) nofun⟩
  | createText text =>
      refine ⟨_, rfl, other (empty_sound.addText ?_) nofun⟩
      rw [show empty.size = 0 from rfl, Nat.zero_add]
      exact room
  | resize capacity =>
      refine ⟨_, rfl, sound.resize room, fun _ same => ?_⟩
      cases same
      exact (buffer.le_resize_cap capacity).1
  | resizeTo capacity size =>
      refine ⟨_, rfl, other ((sound.resize room).shorter ?_) nofun⟩
      rw [resize_size]
      exact passed
  | add data => exact ⟨_, rfl, other (sound.add room) nofun⟩
  | addText text => exact ⟨_, rfl, other (sound.addText room) nofun⟩
  | addNumber n => exact ⟨_, rfl, other (sound.addNumber room passed.1 passed.2) nofun⟩
  | addHex n => exact ⟨_, rfl, other (sound.add room) nofun⟩
  | set data =>
      refine ⟨_, rfl, other (cleared.add ?_) nofun⟩
      rw [clear_size, Nat.zero_add]
      exact room
  | setText text =>
      refine ⟨_, rfl, other (cleared.addText ?_) nofun⟩
      rw [clear_size, Nat.zero_add]
      exact room
  | clear => exact ⟨_, rfl, other cleared nofun⟩
  | removeLeft n => exact ⟨_, rfl, other (sound.removeLeft n) nofun⟩
  | escape start =>
      obtain ⟨after, returns, good⟩ := sound.escape garbage passed room
      exact ⟨after, returns, other good nofun⟩
  | unescape start =>
      obtain ⟨after, returns, good⟩ := sound.unescape passed
      exact ⟨after, returns, other good nofun⟩

theorem Made.sound {garbage : Nat → UInt8} {buffers : Nat → Buffer}
    (made : Made (fun buffer edit => edit.Safe buffer) garbage buffers) : ∀ i, Sound (buffers i) := by
  induction made with
  | new => exact fun _ => empty_sound
  | edit i edit _ safe returns ih =>
      intro j
      obtain ⟨after, applied, good, _⟩ := (ih i).apply garbage safe
      rw [applied, Option.some.injEq] at returns
      subst returns
      by_cases same : j = i
      · rw [same, Function.update_self]
        exact good
      · rw [Function.update_of_ne same]
        exact ih j
  | move i j apart _ ih =>
      intro k
      by_cases second : k = j
      · rw [second, Function.update_self]
        exact (ih i).shorter (Nat.zero_le _)
      · rw [Function.update_of_ne second]
        by_cases first : k = i
        · rw [first, Function.update_self]
          exact (ih j).shorter (Nat.le_refl _)
        · rw [Function.update_of_ne first]
          exact ih k

/-- Whatever is done to buffers, in whatever order, as long as capacities fit an `int` and
`escape` finds room: each buffer is within its block, and so is each buffer after the next
operation.  An `escape` without room goes beyond it. -/
theorem buffers_within {garbage : Nat → UInt8} {buffers : Nat → Buffer}
    (made : Made (fun buffer edit => edit.Safe buffer) garbage buffers) (i : Nat) :
    Within (buffers i) ∧
      (∀ edit : Edit, edit.Safe (buffers i) → ∃ after, edit.apply garbage (buffers i) = some after ∧
        Within after ∧ ∀ capacity, edit = .resize capacity → capacity ≤ after.cap) ∧
      ∀ start ≤ (buffers i).size,
        ((∃ after, (buffers i).escape garbage start = some after ∧ Within after) ↔
          (Edit.escape start).HasRoom (buffers i)) := by
  have sound := made.sound i
  refine ⟨sound.within, fun edit safe => ?_, fun start inside => ⟨?_, fun room => ?_⟩⟩
  · obtain ⟨after, returns, good, wide⟩ := sound.apply garbage safe
    exact ⟨after, returns, good.within, wide⟩
  · rintro ⟨after, returns, within⟩
    by_contra lacking
    obtain ⟨quoted, tight⟩ := not_or.mp lacking
    obtain ⟨beyond, escaped, longer⟩ :=
      escape_beyond garbage sound inside quoted (Nat.not_le.mp tight)
    rw [escaped, Option.some.injEq] at returns
    subst returns
    exact absurd within.size (Nat.not_le.mpr longer)
  · obtain ⟨after, returns, good⟩ := sound.escape garbage inside room
    exact ⟨after, returns, good.within⟩

/-- A buffer of two bytes, one of them a quote. -/
theorem buffers_within_two : ∃ buffers : Nat → Buffer, (buffers 0).contents = ascii "\"a" ∧
    Within (buffers 0) ∧
      (∀ edit : Edit, edit.Safe (buffers 0) →
        ∃ after, edit.apply (fun _ => 0) (buffers 0) = some after ∧
          Within after ∧ ∀ capacity, edit = .resize capacity → capacity ≤ after.cap) ∧
      ∀ start ≤ (buffers 0).size,
        ((∃ after, (buffers 0).escape (fun _ => 0) start = some after ∧ Within after) ↔
          (Edit.escape start).HasRoom (buffers 0)) :=
  ⟨_, rfl, buffers_within
    (.edit 0 (.add (ascii "\"a")) .new ⟨trivial, .inr (by decide)⟩ rfl) 0⟩

/-- A full block of 16 bytes, one of them a quote. -/
theorem escape_overruns : ¬ ∀ (garbage : Nat → UInt8) (buffers : Nat → Buffer),
    Made (fun buffer edit => edit.Passed buffer) garbage buffers → ∀ i, Within (buffers i) := by
  intro always
  have full : Sound (empty.add (ascii "\"aaaaaaaaaaaaaaa")) := empty_sound.add (.inr (by decide))
  obtain ⟨after, escaped, longer⟩ := @escape_beyond _ (fun _ => 0) full 0 (Nat.zero_le _)
    (by decide) (by decide)
  have within := always (fun _ => 0) _
    (.edit 0 (.escape 0) (.edit 0 (.add (ascii "\"aaaaaaaaaaaaaaa")) .new trivial rfl)
      (Nat.zero_le _) escaped) 0
  rw [Function.update_self] at within
  exact absurd within.size (Nat.not_le.mpr longer)

end Buffer

end Ijson
