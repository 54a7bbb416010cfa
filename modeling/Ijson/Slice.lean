/-
Byte strings and errors shared by every module.

`ISlice`, `Slice` and `Buffer` all denote a run of `char`; where only the
contents matter they are plain byte lists here.
-/

import Mathlib.Data.List.Basic

namespace Ijson

abbrev Bytes := List UInt8

/-- The bytes of an ASCII literal of the source. -/
def ascii (text : String) : Bytes :=
  text.toList.map fun letter => letter.toNat.toUInt8

/-- Bytes are looked at one by one where the list is given. -/
theorem forall_of_all {p : UInt8 → Prop} [DecidablePred p] {text : Bytes}
    (whole : text.all (fun a => decide (p a)) = true) : ∀ a ∈ text, p a :=
  fun a member => of_decide_eq_true (List.all_eq_true.mp whole a member)

/-- The exception classes of `exception.h`.  `error::InvalidData` and
`error::NoData` derive from `Exception`; only the first is ever caught on its
own. -/
inductive Exc where
  | invalidData
  | noData
  | exception (reason : String)
  deriving DecidableEq, Repr

end Ijson
