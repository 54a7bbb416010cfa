/-
Messages one after another in a stream.

A reader takes a message off the front of what has arrived, if it is whole.  What
it decides does not depend on what comes behind, and so a stream of messages can
be cut anywhere: the whole messages in front of the cut are read, and no more.
-/

import Mathlib.Data.List.Basic

namespace Ijson

/-- A reader of single messages. -/
structure Framing (α β : Type) where
  read : List α → Option (β × List α)
  extends_read : ∀ {data rest : List α} {value : β} (more : List α),
    read data = some (value, rest) → read (data ++ more) = some (value, rest ++ more)
  consumes : ∀ {data rest : List α} {value : β}, read data = some (value, rest) → rest.length < data.length

namespace Framing

variable {α β : Type} (framing : Framing α β)

/-- The messages that have arrived. -/
def readAll : Nat → List α → List β
  | 0, _ => []
  | fuel + 1, data =>
      match framing.read data with
      | none => []
      | some (value, rest) => value :: readAll fuel rest

/-- The text is one message. -/
def Frames (text : List α) (value : β) : Prop := framing.read text = some (value, [])

variable {framing} {text data : List α} {value : β}

theorem Frames.read_front (frames : framing.Frames text value) (more : List α) :
    framing.read (text ++ more) = some (value, more) :=
  framing.extends_read more frames

theorem Frames.nonempty (frames : framing.Frames text value) : 0 < text.length := framing.consumes frames

theorem Frames.read_part (frames : framing.Frames text value) (part : data <+: text)
    (short : data.length < text.length) : framing.read data = none := by
  obtain ⟨more, textEq⟩ := part
  cases readEq : framing.read data with
  | none => rfl
  | some found =>
      obtain ⟨early, left⟩ := found
      have whole := framing.extends_read more readEq
      rw [textEq, show framing.read text = _ from frames] at whole
      have behind := congrArg Prod.snd (Option.some.inj whole)
      have nothing : more = [] := (List.append_eq_nil_iff.mp behind.symm).2
      rw [← textEq, nothing, List.append_nil] at short
      exact absurd short (Nat.lt_irrefl _)

/-- The whole messages in a part of a stream are read. -/
theorem readAll_part {texts : List (List α)} {values : List β}
    (frames : List.Forall₂ framing.Frames texts values) (part : data <+: texts.flatten) {fuel : Nat}
    (enough : data.length < fuel) :
    ∃ whole ≤ texts.length, framing.readAll fuel data = values.take whole ∧
      (texts.take whole).flatten <+: data ∧
      (whole < texts.length → data.length < (texts.take (whole + 1)).flatten.length) := by
  cases fuel with
  | zero => exact absurd enough (Nat.not_lt_zero _)
  | succ fuel =>
      induction frames generalizing data fuel with
      | nil =>
          rw [List.flatten_nil, List.prefix_nil] at part
          subst part
          have nothing : framing.read [] = none := by
            cases readEq : framing.read [] with
            | none => rfl
            | some found =>
                obtain ⟨early, left⟩ := found
                exact absurd (framing.consumes readEq) (Nat.not_lt_zero _)
          refine ⟨0, Nat.le_refl _, ?_, List.nil_prefix, fun below => absurd below (Nat.lt_irrefl _)⟩
          rw [readAll, nothing]
          rfl
      | @cons text value texts values first rest ih =>
          rw [List.flatten_cons] at part
          by_cases short : data.length < text.length
          · -- the cut is in the first message
            have inFirst : data <+: text :=
              List.prefix_of_prefix_length_le part (List.prefix_append _ _) (Nat.le_of_lt short)
            refine ⟨0, Nat.zero_le _, ?_, List.nil_prefix, fun _ => ?_⟩
            · rw [readAll, first.read_part inFirst short]
              rfl
            · simpa using short
          · obtain ⟨behind, rfl⟩ : text <+: data :=
              List.prefix_of_prefix_length_le (List.prefix_append _ _) part (Nat.le_of_not_lt short)
            rw [List.prefix_append_right_inj] at part
            have room := first.nonempty
            rw [List.length_append] at enough
            cases fuel with
            | zero => omega
            | succ fuel =>
                obtain ⟨whole, within, readEq, arrived, next⟩ := ih part fuel (by omega)
                refine ⟨whole + 1, Nat.succ_le_succ within, ?_, ?_, fun below => ?_⟩
                · rw [readAll, first.read_front]
                  simp only [readEq, List.take_succ_cons]
                · rw [List.take_succ_cons, List.flatten_cons, List.prefix_append_right_inj]
                  exact arrived
                · have more := next (Nat.lt_of_succ_lt_succ below)
                  rw [List.take_succ_cons, List.flatten_cons, List.length_append, List.length_append]
                  omega

end Framing

end Ijson
