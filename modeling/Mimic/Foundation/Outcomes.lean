import Mathlib.Tactic

/-!
# Programs with a state that may stop

Programs over a state `σ` that return a value or stop with an `ε`, and rules to reason about them.
The state at a stop is kept. `ensures stops m Q s` says that `m`, started in `s`, either returns
with a value and a state that satisfy `Q`, or stops in a way and in a state that `stops` allows.
There is a rule for each way to build a program that is used, and a rule of consequence.
-/

namespace Outcomes

variable {σ ε α β : Type}

/-- Programs that return a value or stop. -/
abbrev Prog (σ ε α : Type) := ExceptT ε (StateM σ) α

/-- `m` returns with `Q`, or stops in an allowed way. -/
def ensures (stops : ε → σ → Prop) (m : Prog σ ε α) (Q : α → σ → Prop) (s : σ) : Prop :=
  match m s with
  | (.ok a, t) => Q a t
  | (.error e, t) => stops e t

variable {stops stops' : ε → σ → Prop} {m : Prog σ ε α} {f : α → Prog σ ε β} {Q Q' : α → σ → Prop}
  {P : β → σ → Prop} {s t : σ} {a : α}

theorem ensures_ok (h : m s = (.ok a, t)) (hm : ensures stops m Q s) : Q a t := by
  rw [ensures, h] at hm
  exact hm

theorem ensures_error {e : ε} (h : m s = (.error e, t)) (hm : ensures stops m Q s) : stops e t := by
  rw [ensures, h] at hm
  exact hm

theorem ensures_of_ok (h : m s = (.ok a, t)) (hQ : Q a t) : ensures stops m Q s := by
  rw [ensures, h]
  exact hQ

@[simp] theorem ensures_pure : ensures stops (pure a) Q s ↔ Q a s := Iff.rfl

/-- **Sequence.** -/
@[simp] theorem ensures_bind : ensures stops (m >>= f) P s ↔
    ensures stops m (fun a t ↦ ensures stops (f a) P t) s := by
  rw [ensures, ensures]
  show (match (ExceptT.bindCont f (m s).1 (m s).2 : Except ε β × σ) with
    | (.ok b, t) => P b t | (.error e, t) => stops e t) ↔ _
  obtain ⟨r | a, t⟩ := m s <;> rfl

@[simp] theorem ensures_map (g : α → β) : ensures stops (g <$> m) P s ↔
    ensures stops m (fun a t ↦ P (g a) t) s := by
  rw [map_eq_pure_bind, ensures_bind]
  rfl

@[simp] theorem ensures_get {Q : σ → σ → Prop} : ensures stops (get : Prog σ ε σ) Q s ↔ Q s s :=
  Iff.rfl

@[simp] theorem ensures_set {Q : PUnit → σ → Prop} :
    ensures stops (set t : Prog σ ε PUnit) Q s ↔ Q ⟨⟩ t := Iff.rfl

@[simp] theorem ensures_modify {Q : PUnit → σ → Prop} (g : σ → σ) :
    ensures stops (modify g : Prog σ ε PUnit) Q s ↔ Q ⟨⟩ (g s) := Iff.rfl

/-- **Consequence.** -/
theorem ensures_mono (hs : ∀ e t, stops e t → stops' e t) (h : ∀ a t, Q a t → Q' a t)
    (hm : ensures stops m Q s) : ensures stops' m Q' s := by
  rw [ensures] at hm ⊢
  rcases hr : m s with ⟨e | a, t⟩ <;> rw [hr] at hm
  · exact hs e t hm
  · exact h a t hm

/-- A program that never stops returns. -/
theorem returns_of_ensures (hm : ensures (fun _ _ ↦ False) m Q s) :
    ∃ a t, m s = (.ok a, t) ∧ Q a t := by
  rcases hr : m s with ⟨e | a, t⟩
  · exact (ensures_error hr hm).elim
  · exact ⟨a, t, rfl, ensures_ok hr hm⟩

/-- A program that is found to return by running it. -/
theorem returns_of_any {p : α → σ → Bool} (h : (m s).1.toOption.any fun a ↦ p a (m s).2) :
    ∃ a t, m s = (.ok a, t) ∧ p a t := by
  rcases hr : m s with ⟨e | a, t⟩ <;> rw [hr] at h
  · cases h
  · exact ⟨a, t, rfl, h⟩

/-- What holds of the last state, however the program ends. -/
theorem ensures_snd {P : σ → Prop} (hm : ensures (fun _ t ↦ P t) m (fun _ t ↦ P t) s) :
    P (m s).2 := by
  rw [ensures] at hm
  rcases hr : m s with ⟨e | a, t⟩ <;> rw [hr] at hm <;> exact hm

/-- What a sequence returns. -/
theorem bind_apply : (m >>= f) s =
    match m s with
    | (.ok a, t) => f a t
    | (.error e, t) => (.error e, t) := by
  show ExceptT.bindCont f (m s).1 (m s).2 = _
  rcases m s with ⟨e | a, t⟩ <;> rfl

/-- A sequence returns if both programs do. -/
theorem bind_eq_ok {b : β} (h : (m >>= f) s = (.ok b, t)) :
    ∃ a u, m s = (.ok a, u) ∧ f a u = (.ok b, t) := by
  rw [bind_apply] at h
  rcases hr : m s with ⟨e | a, u⟩ <;> rw [hr] at h
  · cases h
  · exact ⟨a, u, rfl, h⟩

theorem map_eq_ok {g : α → β} {b : β} (h : (g <$> m) s = (.ok b, t)) : ∃ a, m s = (.ok a, t) := by
  rw [map_eq_pure_bind] at h
  obtain ⟨a, u, hm, hu⟩ := bind_eq_ok h
  obtain rfl := (Prod.mk.inj hu).2
  exact ⟨a, hm⟩

end Outcomes
