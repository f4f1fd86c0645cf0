import Mathlib.Tactic
import Mathlib.Data.Finset.Card

/-!
# Forests given by parent pointers

A forest stored the way arenas store it: every element names at most one parent. `climb parent k x`
is the element `k` links above `x`, if the chain is that long, and `Grounded parent r x` says that
the chain from `x` ends at `r`. There is no tree type here and no children: the entry tables of a
concrete arena are somebody else's data, tied to the parent pointers by an invariant of that arena.

## What is proved

* The chain to a parentless element has exactly one length (`climb_root_unique`), so `Grounded`
  determines a depth.
* **Re-parenting** (`grounded_update`): pointing `a` at `b` keeps every chain grounded as long as
  `a` is not on the chain of `b`. This is the only way a pointer store can become cyclic, and the
  hypothesis is exactly the test an implementation has to make.
* **Pigeonhole** (`lt_of_climb_root`): in a store of `n` elements a grounded chain is shorter than
  `n`, which is what makes a walk bounded by the size of the store exact.

Nothing is assumed about the element type beyond decidable equality where a pointer is overwritten.
-/

namespace ParentForest

variable {α : Type*} {parent parent' : α → Option α} {r x y a b : α} {j k : ℕ}

/-! ### Climbing -/

/-- The element `k` parent links above `x`; `none` when the chain is shorter than that. -/
def climb (parent : α → Option α) : ℕ → α → Option α
  | 0, x => some x
  | k + 1, x => (parent x).bind (climb parent k)

@[simp] theorem climb_zero (parent : α → Option α) (x : α) : climb parent 0 x = some x := rfl

theorem climb_succ (parent : α → Option α) (k : ℕ) (x : α) :
    climb parent (k + 1) x = (parent x).bind (climb parent k) := rfl

theorem climb_succ_of_parent (h : parent x = some y) :
    climb parent (k + 1) x = climb parent k y := by
  rw [climb_succ, h, Option.bind_some]

/-- The first link of a chain of positive length. -/
theorem exists_parent_of_climb_succ (h : climb parent (k + 1) x = some r) :
    ∃ p, parent x = some p ∧ climb parent k p = some r :=
  Option.bind_eq_some_iff.1 h

theorem climb_add (parent : α → Option α) (j k : ℕ) :
    ∀ x, climb parent (j + k) x = (climb parent j x).bind (climb parent k) := by
  induction j with
  | zero => intro x; rw [Nat.zero_add, climb_zero, Option.bind_some]
  | succ j ih =>
    intro x
    rw [Nat.succ_add, climb_succ, climb_succ, Option.bind_assoc]
    exact congrArg _ (funext ih)

theorem climb_trans (hj : climb parent j x = some y) (hk : climb parent k y = some r) :
    climb parent (j + k) x = some r := by
  rw [climb_add, hj, Option.bind_some, hk]

/-- The last link of a chain of positive length. -/
theorem climb_succ_right (hk : climb parent k x = some y) (hy : parent y = some r) :
    climb parent (k + 1) x = some r :=
  climb_trans hk (by rw [climb_succ_of_parent hy, climb_zero])

/-- A chain that ends at a parentless element goes no further. -/
theorem climb_eq_none_of_lt (hr : parent r = none) (hk : climb parent k x = some r) (h : k < j) :
    climb parent j x = none := by
  obtain ⟨m, rfl⟩ := Nat.exists_eq_add_of_lt h
  rw [Nat.add_assoc, climb_add, hk, Option.bind_some, climb_succ, hr, Option.bind_none]

/-- **The chain to a parentless element has one length.** -/
theorem climb_root_unique (hr : parent r = none) (hj : climb parent j x = some r)
    (hk : climb parent k x = some r) : j = k := by
  rcases Nat.lt_trichotomy j k with h | h | h
  · rw [climb_eq_none_of_lt hr hj h] at hk; cases hk
  · exact h
  · rw [climb_eq_none_of_lt hr hk h] at hj; cases hj

/-- What lies above `y` on a chain lies above everything whose chain reaches `y`, at the
remaining distance. -/
theorem climb_of_le (hk : climb parent k x = some r) (hj : climb parent j x = some y)
    (h : j ≤ k) : climb parent (k - j) y = some r := by
  have hsplit : climb parent (j + (k - j)) x = some r := by
    rwa [Nat.add_sub_cancel' h]
  rwa [climb_add, hj, Option.bind_some] at hsplit

/-! ### Grounded elements and ancestors -/

/-- The chain from `x` ends at `r` after finitely many links. -/
def Grounded (parent : α → Option α) (r x : α) : Prop :=
  ∃ k, climb parent k x = some r

/-- `a` is `x` itself or lies somewhere on its chain. -/
def IsAncestor (parent : α → Option α) (a x : α) : Prop :=
  ∃ k, climb parent k x = some a

theorem IsAncestor.refl (parent : α → Option α) (x : α) : IsAncestor parent x x :=
  ⟨0, rfl⟩

theorem IsAncestor.of_parent (hx : parent x = some y) (h : IsAncestor parent a y) :
    IsAncestor parent a x := by
  obtain ⟨k, hk⟩ := h
  exact ⟨k + 1, by rw [climb_succ_of_parent hx, hk]⟩

theorem Grounded.of_parent (hx : parent x = some y) (h : Grounded parent r y) :
    Grounded parent r x :=
  IsAncestor.of_parent hx h

/-- **A grounded element is never strictly above itself.** -/
theorem climb_ne_self (hr : parent r = none) (hx : Grounded parent r x) :
    climb parent (k + 1) x ≠ some x := by
  intro hcycle
  obtain ⟨d, hd⟩ := hx
  have htwice : climb parent (k + 1 + d) x = some r := climb_trans hcycle hd
  have := climb_root_unique hr hd htwice
  omega

/-! ### Overwriting one pointer -/

/-- Chains that avoid the changed pointers are unchanged. -/
theorem climb_congr (h : ∀ y, IsAncestor parent y x → parent' y = parent y) :
    climb parent' k x = climb parent k x := by
  induction k generalizing x with
  | zero => rfl
  | succ k ih =>
    rw [climb_succ, climb_succ, h x (IsAncestor.refl parent x)]
    rcases hp : parent x with - | p
    · rfl
    · exact ih fun y hy ↦ h y (IsAncestor.of_parent hp hy)

/-- **Re-parenting keeps a forest grounded**, provided the moved element is not on the chain of its
new parent. Each chain is followed until it meets `a`, and from there it continues over `b`. -/
theorem grounded_update [DecidableEq α] (hb : Grounded parent r b) (hab : ¬ IsAncestor parent a b)
    (hx : Grounded parent r x) : Grounded (Function.update parent a (some b)) r x := by
  have hb' : Grounded (Function.update parent a (some b)) r b := by
    obtain ⟨k, hk⟩ := hb
    have hsame : climb (Function.update parent a (some b)) k b = climb parent k b := by
      refine climb_congr fun y hy ↦ Function.update_of_ne ?_ _ _
      rintro rfl
      exact hab hy
    exact ⟨k, hsame.trans hk⟩
  obtain ⟨k, hk⟩ := hx
  induction k generalizing x with
  | zero => exact ⟨0, hk⟩
  | succ k ih =>
    by_cases hxa : x = a
    · subst hxa
      exact Grounded.of_parent (Function.update_self _ _ _) hb'
    · obtain ⟨p, hp, hpk⟩ := exists_parent_of_climb_succ hk
      refine Grounded.of_parent (y := p) ?_ (ih hpk)
      rw [Function.update_of_ne hxa, hp]

/-! ### Pigeonhole over a finite store -/

/-- **A grounded chain is shorter than any set that has all of it**: its elements are pairwise
distinct, because two equal ones would be at two distances from the end. -/
theorem lt_card_of_climb_root [DecidableEq α] {S : Finset α} (hr : parent r = none)
    (hS : ∀ y, IsAncestor parent y x → y ∈ S) (hk : climb parent k x = some r) : k < S.card := by
  have hmem : ∀ j ≤ k, ∃ y, climb parent j x = some y := by
    intro j
    induction j with
    | zero => intro _; exact ⟨x, rfl⟩
    | succ j ih =>
      intro hj
      obtain ⟨y, hjy⟩ := ih (by omega)
      have hrest : climb parent (k - j) y = some r := climb_of_le hk hjy (by omega)
      rw [show k - j = (k - (j + 1)) + 1 by omega] at hrest
      obtain ⟨p, hp, -⟩ := exists_parent_of_climb_succ hrest
      exact ⟨p, climb_succ_right hjy hp⟩
  have : Nonempty α := ⟨x⟩
  -- the chain visits an element of the set in each step, and none twice
  choose! f hclimb using hmem
  have hinj : Set.InjOn f (Finset.range (k + 1)) := by
    intro i hi j hj hij
    rw [Finset.coe_range, Set.mem_Iio] at hi hj
    have hi' := climb_of_le hk (hclimb i (by omega)) (by omega)
    have hj' := climb_of_le hk (hclimb j (by omega)) (by omega)
    rw [hij] at hi'
    have := climb_root_unique hr hi' hj'
    omega
  have hsub : (Finset.range (k + 1)).image f ⊆ S := by
    intro y hy
    obtain ⟨j, hj, rfl⟩ := Finset.mem_image.1 hy
    exact hS _ ⟨j, hclimb j (by have := Finset.mem_range.1 hj; omega)⟩
  have hcard := Finset.card_le_card hsub
  rw [Finset.card_image_of_injOn hinj, Finset.card_range] at hcard
  omega

/-- A grounded chain in a store of `n` elements is shorter than `n`. -/
theorem lt_of_climb_root {parent : ℕ → Option ℕ} {n r x k : ℕ}
    (hlt : ∀ y p, y < n → parent y = some p → p < n) (hr : parent r = none) (hx : x < n)
    (hk : climb parent k x = some r) : k < n := by
  have hbelow : ∀ j x y, x < n → climb parent j x = some y → y < n := by
    intro j
    induction j with
    | zero => exact fun x y hx hy ↦ Option.some.inj hy ▸ hx
    | succ j ih =>
      intro x y hx hy
      obtain ⟨p, hp, hpy⟩ := exists_parent_of_climb_succ hy
      exact ih p y (hlt x p hx hp) hpy
  have hcard := lt_card_of_climb_root (S := Finset.range n) hr
    (fun y ⟨j, hj⟩ ↦ Finset.mem_range.2 (hbelow j x y hx hj)) hk
  rwa [Finset.card_range] at hcard

end ParentForest
