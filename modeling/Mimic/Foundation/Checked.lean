import Mathlib.Tactic

/-!
# Checked arithmetic

Operations on integers that have no result if it would not fit the machine's: `i64`, and for the
natural numbers `u32`. The casts `as` keep the low bits.
-/

namespace Checked

variable {n a b : ℤ}

/-- `n`, if it is an `i64`. -/
def fits (n : ℤ) : Option ℤ := if -2 ^ 63 ≤ n ∧ n < 2 ^ 63 then some n else none

def add (a b : ℤ) : Option ℤ := fits (a + b)

def sub (a b : ℤ) : Option ℤ := fits (a - b)

def mul (a b : ℤ) : Option ℤ := fits (a * b)

/-- The sum of two `u32`. -/
def addU32 (a b : ℕ) : Option ℕ := if a + b < 2 ^ 32 then some (a + b) else none

/-- The difference of two `u32`. -/
def subU32 (a b : ℕ) : Option ℕ := if b ≤ a then some (a - b) else none

/-- `as u32`. -/
def asU32 (n : ℤ) : ℕ := (n % 2 ^ 32).toNat

theorem fits_eq (hlow : -2 ^ 63 ≤ n) (hhigh : n < 2 ^ 63) : fits n = some n := if_pos ⟨hlow, hhigh⟩

theorem add_eq (hlow : -2 ^ 63 ≤ a + b) (hhigh : a + b < 2 ^ 63) : add a b = some (a + b) :=
  fits_eq hlow hhigh

theorem fits_bind {β : Type*} {f : ℤ → Option β} (hlow : -2 ^ 63 ≤ n) (hhigh : n < 2 ^ 63) :
    (fits n).bind f = f n := by
  rw [fits_eq hlow hhigh, Option.bind_some]

theorem ite_eq {β : Type*} {p : Prop} [Decidable p] {x y : Option β} {v w : β}
    (hx : x = some v) (hy : y = some w) : (if p then x else y) = some (if p then v else w) := by
  rw [hx, hy, apply_ite some]

theorem addU32_eq {a b : ℕ} (h : a + b < 2 ^ 32) : addU32 a b = some (a + b) := if_pos h

theorem subU32_eq {a b : ℕ} (h : b ≤ a) : subU32 a b = some (a - b) := if_pos h

theorem asU32_eq (hlow : 0 ≤ n) (hhigh : n < 2 ^ 32) : asU32 n = n.toNat := by
  rw [asU32, Int.emod_eq_of_lt hlow hhigh]

end Checked
