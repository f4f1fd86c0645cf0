import Mathlib.Tactic

/-!
# Runs of guarded steps

A deterministic machine given by a step function, with a guard that says which steps may be taken
where. `run step s as` is the state after the steps `as`, and `Admissible step guard s as` says
that each of them was allowed in the state it was taken in.

The two rules a development needs are the invariant rule (`invariant_run`): what the start satisfies
and every admissible step preserves holds at the end of every admissible run, and its quantitative
form (`potential_run`): a quantity that each step changes by a known amount has changed by the sum
of these amounts. Where the guard is exactly what a property needs to survive a step, the admissible
runs are those all along which the property holds (`forall_take_iff`). Splitting a run
(`run_append`, `admissible_append`) turns statements about the end of a run into statements about
each state on the way.
-/

namespace GuardedRun

variable {σ α : Type*}

/-- The state after the steps `as` from `s`. -/
def run (step : α → σ → σ) (s : σ) (as : List α) : σ :=
  as.foldl (fun s a ↦ step a s) s

/-- Each step of the run satisfies the guard in the state it is taken in. -/
def Admissible (step : α → σ → σ) (guard : α → σ → Prop) : σ → List α → Prop
  | _, [] => True
  | s, a :: as => guard a s ∧ Admissible step guard (step a s) as

/-- The sum over a run of what each step costs in the state it is taken in. -/
def total (step : α → σ → σ) (cost : α → σ → ℕ) : σ → List α → ℕ
  | _, [] => 0
  | s, a :: as => cost a s + total step cost (step a s) as

variable {step : α → σ → σ} {guard : α → σ → Prop} {s : σ} {a : α} {as bs : List α}

@[simp] theorem run_nil : run step s [] = s := rfl

@[simp] theorem run_cons : run step s (a :: as) = run step (step a s) as := rfl

theorem run_append : run step s (as ++ bs) = run step (run step s as) bs :=
  List.foldl_append

theorem admissible_cons :
    Admissible step guard s (a :: as) ↔ guard a s ∧ Admissible step guard (step a s) as :=
  Iff.rfl

/-- A guard that allows everything. -/
theorem admissible_true : Admissible step (fun _ _ ↦ True) s as := by
  induction as generalizing s with
  | nil => trivial
  | cons a as ih => exact ⟨trivial, ih⟩

instance decidableAdmissible [∀ a s, Decidable (guard a s)] :
    ∀ (s : σ) (as : List α), Decidable (Admissible step guard s as)
  | _, [] => isTrue trivial
  | s, a :: as =>
    haveI := decidableAdmissible (step a s) as
    inferInstanceAs (Decidable (guard a s ∧ Admissible step guard (step a s) as))

theorem admissible_append :
    Admissible step guard s (as ++ bs) ↔
      Admissible step guard s as ∧ Admissible step guard (run step s as) bs := by
  induction as generalizing s with
  | nil => exact (and_iff_right trivial).symm
  | cons a as ih => rw [List.cons_append, admissible_cons, ih, admissible_cons, and_assoc, run_cons]

/-- **The invariant rule.** -/
theorem invariant_run {I : σ → Prop} (h : Admissible step guard s as)
    (hkeep : ∀ a s, guard a s → I s → I (step a s)) (hs : I s) : I (run step s as) := by
  induction as generalizing s with
  | nil => exact hs
  | cons a as ih => exact ih h.2 (hkeep a s h.1 hs)

/-- **The rule of weaker guards**: under an invariant, what one guard allows another may. -/
theorem Admissible.mono {I : σ → Prop} {guard' : α → σ → Prop} (h : Admissible step guard s as)
    (hkeep : ∀ a s, guard a s → I s → I (step a s)) (hweak : ∀ a s, guard a s → I s → guard' a s)
    (hs : I s) : Admissible step guard' s as := by
  induction as generalizing s with
  | nil => trivial
  | cons a as ih => exact ⟨hweak a s h.1 hs, ih h.2 (hkeep a s h.1 hs)⟩

/-- A property of the steps themselves is a guard. -/
theorem Admissible.and_forall {P : α → Prop} (h : Admissible step guard s as)
    (hall : ∀ a ∈ as, P a) : Admissible step (fun a s ↦ P a ∧ guard a s) s as := by
  induction as generalizing s with
  | nil => trivial
  | cons a as ih =>
    obtain ⟨ha, has⟩ := List.forall_mem_cons.mp hall
    exact ⟨⟨ha, h.1⟩, ih h.2 has⟩

/-- **The potential rule**: when each admissible step moves the balance `lo + cost = hi`, so does
the whole run. -/
theorem potential_run {I : σ → Prop} {lo hi : σ → ℕ} {cost : α → σ → ℕ}
    (h : Admissible step guard s as) (hkeep : ∀ a s, guard a s → I s → I (step a s))
    (hstep : ∀ a s, guard a s → I s → hi (step a s) + lo s = hi s + lo (step a s) + cost a s)
    (hs : I s) :
    hi (run step s as) + lo s = hi s + lo (run step s as) + total step cost s as := by
  induction as generalizing s with
  | nil => rfl
  | cons a as ih =>
    have hfirst := hstep a s h.1 hs
    have hrest := ih h.2 (hkeep a s h.1 hs)
    rw [run_cons, total]
    omega

/-- **The rule of exact guards**: when `exact` says of an admissible step whether `P` still holds
behind it, `P` holds all along a run exactly if the run is admissible for `exact`. -/
theorem forall_take_iff {I P : σ → Prop} {exact : α → σ → Prop}
    (h : Admissible step guard s as) (hkeep : ∀ a s, guard a s → I s → I (step a s))
    (hstep : ∀ a s, guard a s → I s → P s → (P (step a s) ↔ exact a s)) (hs : I s) (hP : P s) :
    (∀ k, P (run step s (as.take k))) ↔ Admissible step exact s as := by
  induction as generalizing s with
  | nil =>
    refine iff_of_true (fun k ↦ ?_) trivial
    rw [List.take_nil]
    exact hP
  | cons a as ih =>
    have hsame := hstep a s h.1 hs hP
    rw [admissible_cons]
    constructor
    · intro hall
      have hnext : P (step a s) := hall 1
      exact ⟨hsame.mp hnext, (ih h.2 (hkeep a s h.1 hs) hnext).mp fun k ↦ hall (k + 1)⟩
    · rintro ⟨ha, has⟩ k
      cases k with
      | zero => exact hP
      | succ k => exact (ih h.2 (hkeep a s h.1 hs) (hsame.mpr ha)).mpr has k

/-- A quantity to which each step adds its cost. -/
theorem spent_run {q : σ → ℕ} {cost : α → σ → ℕ} (hstep : ∀ a s, q (step a s) = q s + cost a s) :
    q (run step s as) = q s + total step cost s as := by
  induction as generalizing s with
  | nil => rfl
  | cons a as ih => rw [run_cons, ih, hstep, total, Nat.add_assoc]

theorem total_eq_zero_iff {cost : α → σ → ℕ} :
    total step cost s as = 0 ↔ Admissible step (fun a s ↦ cost a s = 0) s as := by
  induction as generalizing s with
  | nil => exact ⟨fun _ ↦ trivial, fun _ ↦ rfl⟩
  | cons a as ih => rw [total, Nat.add_eq_zero_iff, ih, admissible_cons]

end GuardedRun
