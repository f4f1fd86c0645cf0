import Mimic.Foundation.Outcomes

/-!
# Relations that programs keep

`Keeps S R s₀ m s` says that the program `m`, started in `s`, returns only in states that `R`
relates to `s₀`, and stops only in states that `S` does. Where `R` is a preorder and `S` goes on
from it (`Ends`), the rules follow the way a program is built, so that a program keeps what its
parts keep.
-/

namespace Outcomes

variable {σ ε α β : Type} {S R : σ → σ → Prop} {s₀ s t : σ} {m : Prog σ ε α} {f : α → Prog σ ε β}

/-- `R` and `S` compose as the ends of programs do. -/
structure Ends (S R : σ → σ → Prop) : Prop where
  refl : ∀ s, R s s
  trans : ∀ {s t u}, R s t → R t u → R s u
  stops : ∀ {s t}, R s t → S s t
  transStops : ∀ {s t u}, R s t → S t u → S s u

/-- `m`, started in `s`, ends in states related to `s₀`. -/
def Keeps (S R : σ → σ → Prop) (s₀ : σ) (m : Prog σ ε α) (s : σ) : Prop :=
  ensures (fun _ t ↦ S s₀ t) m (fun _ t ↦ R s₀ t) s

namespace Keeps

theorem pure {a : α} (h : R s₀ s) : Keeps S R s₀ (pure a : Prog σ ε α) s := h

theorem stop {e : ε} (h : S s₀ s) : Keeps S R s₀ (throw e : Prog σ ε α) s := h

/-- **Sequence.** -/
theorem bind (hm : Keeps S R s₀ m s) (hf : ∀ a t, R s₀ t → Keeps S R s₀ (f a) t) :
    Keeps S R s₀ (m >>= f) s := by
  rw [Keeps, ensures_bind]
  exact ensures_mono (fun _ _ h ↦ h) hf hm

theorem map {g : α → β} (hm : Keeps S R s₀ m s) : Keeps S R s₀ (g <$> m) s := by
  rw [Keeps, ensures_map]
  exact hm

/-- A program behind a step. -/
theorem after (he : Ends S R) (h : R s₀ t) (hm : Keeps S R t m s) : Keeps S R s₀ m s :=
  ensures_mono (fun _ _ ht ↦ he.transStops h ht) (fun _ _ ht ↦ he.trans h ht) hm

/-- A program that says of its ends what is enough for `s₀`. -/
theorem inner (hm : Keeps S R t m s) (hstop : ∀ u, S t u → S s₀ u)
    (hf : ∀ a u, R t u → Keeps S R s₀ (f a) u) : Keeps S R s₀ (m >>= f) s := by
  rw [Keeps, ensures_bind]
  exact ensures_mono (fun _ u hu ↦ hstop u hu) hf hm

@[simp] theorem get_bind {f : σ → Prog σ ε β} :
    Keeps S R s₀ (get >>= f) s ↔ Keeps S R s₀ (f s) s := Iff.rfl

@[simp] theorem set_bind {f : PUnit → Prog σ ε β} :
    Keeps S R s₀ (set t >>= f) s ↔ Keeps S R s₀ (f ⟨⟩) t := Iff.rfl

@[simp] theorem modify_bind {g : σ → σ} {f : PUnit → Prog σ ε β} :
    Keeps S R s₀ (modify g >>= f) s ↔ Keeps S R s₀ (f ⟨⟩) (g s) := Iff.rfl

/-- The last state of a program, however it ends. -/
theorem ended (he : Ends S R) (hm : Keeps S R s₀ m s) : S s₀ (m s).2 :=
  ensures_snd (ensures_mono (fun _ _ h ↦ h) (fun _ _ h ↦ he.stops h) hm)

end Keeps

end Outcomes
