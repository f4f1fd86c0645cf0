import Mathlib.Data.List.TakeWhile

/-!
# List operations that check their indices

The operations of a growable array by position, as `Option`: the value where every index is in
range, and `none` where the array would refuse.

## Main results

* `slice_eq`, `splitOff_eq`, `drain_eq`, `splice_eq`: what they give in range.
* `retreat_eq`: a loop that steps back while a test holds of the element before, in range all the
  way down if it starts in range.
-/

namespace CheckedList

variable {α : Type*} (xs : List α)

/-- `xs[start..stop]`. -/
def slice (start stop : ℕ) : Option (List α) :=
  if start ≤ stop ∧ stop ≤ xs.length then some ((xs.take stop).drop start) else none

/-- What is left of `xs`, and what was split off at an index. -/
def splitOff (at' : ℕ) : Option (List α × List α) :=
  if at' ≤ xs.length then some (xs.take at', xs.drop at') else none

/-- What was removed between two indices, and what is left of `xs`. -/
def drain (start stop : ℕ) : Option (List α × List α) :=
  if start ≤ stop ∧ stop ≤ xs.length then
    some ((xs.take stop).drop start, xs.take start ++ xs.drop stop)
  else none

/-- Put `ys` in at an index. -/
def splice (at' : ℕ) (ys : List α) : Option (List α) :=
  if at' ≤ xs.length then some (xs.take at' ++ ys ++ xs.drop at') else none

/-- `while i > 0 && p(xs[i - 1]) { i -= 1 }`. -/
def retreat (p : α → Bool) : ℕ → Option ℕ
  | 0 => some 0
  | i + 1 =>
    match xs[i]? with
    | none => none
    | some x => if p x then retreat p i else some (i + 1)

variable {xs}

theorem slice_eq {start stop : ℕ} (h : start ≤ stop) (hs : stop ≤ xs.length) :
    slice xs start stop = some ((xs.take stop).drop start) :=
  if_pos ⟨h, hs⟩

theorem splitOff_eq {i : ℕ} (h : i ≤ xs.length) :
    splitOff xs i = some (xs.take i, xs.drop i) :=
  if_pos h

theorem drain_eq {start stop : ℕ} (h : start ≤ stop) (hs : stop ≤ xs.length) :
    drain xs start stop = some ((xs.take stop).drop start, xs.take start ++ xs.drop stop) :=
  if_pos ⟨h, hs⟩

theorem splice_eq {i : ℕ} (h : i ≤ xs.length) (ys : List α) :
    splice xs i ys = some (xs.take i ++ ys ++ xs.drop i) :=
  if_pos h

theorem retreat_eq (p : α → Bool) {i : ℕ} (h : i ≤ xs.length) :
    retreat xs p i = some ((xs.take i).reverse.dropWhile p).length := by
  induction i with
  | zero => simp [retreat]
  | succ i ih =>
    have hx : xs[i]? = some xs[i] := List.getElem?_eq_getElem (by omega)
    have ht : (xs.take (i + 1)).reverse = xs[i] :: (xs.take i).reverse := by
      rw [List.take_add_one, hx, List.reverse_append]
      rfl
    simp only [retreat, hx]
    rw [ht, List.dropWhile_cons]
    split
    · exact ih (by omega)
    · rw [List.length_cons, List.length_reverse, List.length_take_of_le (by omega)]

end CheckedList
