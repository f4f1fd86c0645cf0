import Mimic.Foundation.Comparators
import Mimic.Shell.Arith

/-!
# Numeric order of lines

`sort -n` (`commands/text.rs`) compares lines by the numbers that they are read as, where a line
that is none counts as the least number there is. A line may be read as NaN, which compares with
nothing, and two lines that do not compare are taken for equal. One such line makes all the others
equal, so there is no order left unless they are (`compareNumeric_iff`).
-/

namespace Mimic

namespace SortLines

open Comparators

/-- `f64`, by value: NaN, or a number or infinity. Both zeros are the number zero, as `partial_cmp`
has them. -/
abbrev F64 := Datum (WithBot (WithTop ℚ))

/-- `f64::MIN`. -/
def f64Min : F64 := .num ((-(2 ^ 1024 - 2 ^ 971) : ℚ) : WithTop ℚ)

variable (parse : Str → Option F64)

/-- The number that a line counts as. -/
def number (line : Str) : F64 := (parse (Text.trim line)).getD f64Min

/-- The comparator of `sort -n`. -/
def compareNumeric (a b : Str) : Ordering :=
  ((number parse a).partialCmp (number parse b)).getD .eq

/-- **When `sort -n` has an order to sort by**: no line is NaN, or all the lines that are not have
the same number. -/
theorem compareNumeric_iff (lines : List Str) :
    IsTotalPreorderOn (compareNumeric parse) lines ↔
      (∀ line ∈ lines, number parse line ≠ .nan) ∨
        ∀ a ∈ lines, ∀ b ∈ lines, number parse a ≠ .nan → number parse b ≠ .nan →
          number parse a = number parse b :=
  isTotalPreorderOn_orEqual_iff (number parse) lines

/-- Reads `nan`, and numbers without a fraction. -/
def parseSome (text : Str) : Option F64 :=
  if text = "nan".toList then some .nan
  else (Arith.parseI64 10 text).map fun n ↦ .num ((n.toInt : ℚ) : WithTop ℚ)

/-- `2` is not greater than `nan`, nor `nan` than `1`. -/
theorem not_total_nan : ¬ ∀ lines, IsTotalPreorderOn (compareNumeric parseSome) lines := by
  intro h
  have htrans := (h ["2".toList, "nan".toList, "1".toList]).trans "2".toList (by decide)
    "nan".toList (by decide) "1".toList (by decide)
  revert htrans
  decide +kernel

end SortLines

end Mimic
