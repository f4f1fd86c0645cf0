import Mathlib.Data.List.Destutter
import Mathlib.Data.Rat.Defs
import Mathlib.Order.Compare
import Mathlib.Order.WithBot
import Mathlib.Tactic

/-!
# Comparators

What a sort needs of a comparator is a total preorder (`IsTotalPreorderOn`). Data that may be no
number are compared in part only (`Datum.partialCmp`), and to take what cannot be compared for equal
makes a total preorder of it if there is nothing to compare: no datum is without a number, or all
numbers are the same (`isTotalPreorderOn_orEqual_iff`).

Where a comparator makes no two elements equal, sorting a list and dropping what is repeated leaves
the elements in strict order (`pairwise_destutter_mergeSort`).
-/

namespace Comparators

variable {α β : Type*}

/-- On the elements of a list, `cmp` is a total preorder, and says the same from both sides. -/
structure IsTotalPreorderOn (cmp : β → β → Ordering) (l : List β) : Prop where
  refl : ∀ a ∈ l, cmp a a = .eq
  swap : ∀ a ∈ l, ∀ b ∈ l, cmp b a = (cmp a b).swap
  total : ∀ a ∈ l, ∀ b ∈ l, (cmp a b).isLE ∨ (cmp b a).isLE
  trans : ∀ a ∈ l, ∀ b ∈ l, ∀ c ∈ l, (cmp a b).isLE → (cmp b c).isLE → (cmp a c).isLE

/-- A number, or none. -/
inductive Datum (α : Type*)
  | nan
  | num (a : α)
  deriving DecidableEq

section LinearOrder

variable [LinearOrder α]

namespace Datum

/-- The order of two numbers. -/
def partialCmp : Datum α → Datum α → Option Ordering
  | num a, num b => some (compare a b)
  | _, _ => none

/-- The order of two data, if they have one, and else equal. -/
def orEqual (x y : Datum α) : Ordering := (x.partialCmp y).getD .eq

@[simp] theorem orEqual_num (a b : α) : (num a).orEqual (num b) = compare a b := rfl

@[simp] theorem nan_orEqual (x : Datum α) : nan.orEqual x = .eq := by cases x <;> rfl

@[simp] theorem orEqual_nan (x : Datum α) : x.orEqual nan = .eq := by cases x <;> rfl

theorem orEqual_self (x : Datum α) : x.orEqual x = .eq := by
  cases x with
  | nan => rfl
  | num a => exact compare_eq_iff_eq.mpr rfl

theorem orEqual_swap (x y : Datum α) : y.orEqual x = (x.orEqual y).swap := by
  cases x with
  | nan => rw [nan_orEqual, orEqual_nan, Ordering.swap_eq]
  | num a =>
    cases y with
    | nan => rw [nan_orEqual, orEqual_nan, Ordering.swap_eq]
    | num b => rw [orEqual_num, orEqual_num, Std.OrientedOrd.eq_swap]

theorem isLE_orEqual_num {a b : α} : ((num a).orEqual (num b)).isLE = true ↔ a ≤ b := by
  rw [orEqual_num, Ordering.isLE_iff_ne_gt]
  exact compare_le_iff_le

end Datum

/-- **When the rest may be taken for equal.** -/
theorem isTotalPreorderOn_orEqual_iff (key : β → Datum α) (l : List β) :
    IsTotalPreorderOn (fun a b ↦ (key a).orEqual (key b)) l ↔
      (∀ a ∈ l, key a ≠ .nan) ∨
        ∀ a ∈ l, ∀ b ∈ l, key a ≠ .nan → key b ≠ .nan → key a = key b := by
  constructor
  · intro h
    by_contra hcond
    push Not at hcond
    obtain ⟨⟨c, hc, hnan⟩, a, ha, b, hb, hka, hkb, hne⟩ := hcond
    -- both numbers are equal to what is none, and so are in order either way
    have hle : ∀ {a b}, a ∈ l → b ∈ l → ((key a).orEqual (key b)).isLE := fun {a b} ha hb ↦
      h.trans a ha c hc b hb (by rw [hnan, Datum.orEqual_nan]; rfl)
        (by rw [hnan, Datum.nan_orEqual]; rfl)
    have hab := hle ha hb
    have hba := hle hb ha
    rcases hx : key a with - | x
    · exact hka hx
    rcases hy : key b with - | y
    · exact hkb hy
    rw [hx, hy, Datum.isLE_orEqual_num] at hab
    rw [hx, hy, Datum.isLE_orEqual_num] at hba
    exact hne (by rw [hx, hy, le_antisymm hab hba])
  · intro h
    refine ⟨fun a _ ↦ Datum.orEqual_self _, fun a _ b _ ↦ Datum.orEqual_swap _ _, ?_, ?_⟩
    · intro a _ b _
      rw [Datum.orEqual_swap (key a) (key b)]
      cases (key a).orEqual (key b) <;> simp
    · intro a ha b hb c hc hab hbc
      rcases h with hnum | hsame
      · rcases hx : key a with - | x
        · exact absurd hx (hnum a ha)
        rcases hy : key b with - | y
        · exact absurd hy (hnum b hb)
        rcases hz : key c with - | z
        · exact absurd hz (hnum c hc)
        rw [hx, hy, Datum.isLE_orEqual_num] at hab
        rw [hy, hz, Datum.isLE_orEqual_num] at hbc
        exact Datum.isLE_orEqual_num.mpr (hab.trans hbc)
      · by_cases hx : key a = .nan
        · rw [hx, Datum.nan_orEqual]
          rfl
        by_cases hz : key c = .nan
        · rw [hz, Datum.orEqual_nan]
          rfl
        rw [hsame a ha c hc hx hz, Datum.orEqual_self]
        rfl

end LinearOrder

section Sorting

variable [Ord α] [Std.TransOrd α]

theorem isLE_total (a b : α) : (compare a b).isLE || (compare b a).isLE := by
  have hswap : compare b a = (compare a b).swap := Std.OrientedCmp.eq_swap
  rw [hswap]
  cases compare a b <;> rfl

theorem pairwise_mergeSort (l : List α) :
    (l.mergeSort fun a b ↦ (compare a b).isLE).Pairwise fun a b ↦ (compare a b).isLE :=
  List.pairwise_mergeSort (fun _ _ _ ↦ Std.TransCmp.isLE_trans) isLE_total l

variable [Std.LawfulEqOrd α] [DecidableEq α]

theorem destutter_mergeSort (l : List α) :
    (l.mergeSort fun a b ↦ (compare a b).isLE).destutter (· ≠ ·) =
      (l.mergeSort fun a b ↦ (compare a b).isLE).dedup := by
  have hanti : Std.Antisymm fun a b : α ↦ (compare a b).isLE :=
    ⟨fun _ _ hab hba ↦ Std.LawfulEqOrd.eq_of_compare (Std.OrientedCmp.isLE_antisymm hab hba)⟩
  exact (pairwise_mergeSort l).destutter_eq_dedup

/-- **Sorting and dropping what is repeated** leaves the elements in strict order. -/
theorem pairwise_destutter_mergeSort (l : List α) :
    ((l.mergeSort fun a b ↦ (compare a b).isLE).destutter (· ≠ ·)).Pairwise
      fun a b ↦ compare a b = .lt := by
  rw [destutter_mergeSort]
  refine (((pairwise_mergeSort l).sublist (List.dedup_sublist _)).and
    (List.nodup_dedup _)).imp fun {a b} ⟨hle, hne⟩ ↦ ?_
  rcases hab : compare a b with - | - | -
  · rfl
  · exact absurd (Std.LawfulEqOrd.eq_of_compare hab) hne
  · rw [hab] at hle
    cases hle

theorem mem_destutter_mergeSort {l : List α} {a : α} :
    a ∈ (l.mergeSort fun a b ↦ (compare a b).isLE).destutter (· ≠ ·) ↔ a ∈ l := by
  rw [destutter_mergeSort, List.mem_dedup, (List.mergeSort_perm l _).mem_iff]

end Sorting

end Comparators
