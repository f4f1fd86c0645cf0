import Mimic.Foundation.Outcomes

/-!
# Pairs of programs

`Mirrors R m s m' t` says that `m`, started in `s`, and `m'`, started in `t`, end in the same way:
both return the same value, in states that `R` relates, or both stop in the same way. The rules go
along the way in which the two programs are built.
-/

namespace Outcomes

variable {σ ε α β : Type} {Q R : σ → σ → Prop} {s s' t t' : σ} {m m' : Prog σ ε α}
  {f f' : α → Prog σ ε β}

/-- The two programs end alike. -/
def Mirrors (R : σ → σ → Prop) (m : Prog σ ε α) (s : σ) (m' : Prog σ ε α) (t : σ) : Prop :=
  ensures (fun e _ ↦ ∃ v, m' t = (.error e, v)) m (fun a u ↦ ∃ v, m' t = (.ok a, v) ∧ R u v) s

namespace Mirrors

theorem pure {a : α} (h : R s t) : Mirrors R (pure a : Prog σ ε α) s (pure a) t := ⟨t, rfl, h⟩

theorem stop {e : ε} : Mirrors R (throw e : Prog σ ε α) s (throw e) t := ⟨t, rfl⟩

theorem bind_ok {a : α} {v : σ} (h : m' t = (.ok a, v)) : (m' >>= f') t = f' a v := by
  show ExceptT.bindCont f' (m' t).1 (m' t).2 = _
  rw [h]
  rfl

theorem bind_error {e : ε} {v : σ} (h : m' t = (.error e, v)) : (m' >>= f') t = (.error e, v) := by
  show ExceptT.bindCont f' (m' t).1 (m' t).2 = _
  rw [h]
  rfl

/-- **Sequence.** -/
theorem bind (hm : Mirrors Q m s m' t)
    (hf : ∀ a u v, Q u v → Mirrors R (f a) u (f' a) v) :
    Mirrors R (m >>= f) s (m' >>= f') t := by
  rw [Mirrors, ensures_bind]
  refine ensures_mono ?_ ?_ hm
  · rintro e _ ⟨v, hv⟩
    exact ⟨v, bind_error hv⟩
  · rintro a u ⟨v, hv, huv⟩
    rw [bind_ok hv]
    exact hf a u v huv

theorem map {g : α → β} (hm : Mirrors R m s m' t) : Mirrors R (g <$> m) s (g <$> m') t := by
  rw [map_eq_pure_bind, map_eq_pure_bind]
  exact hm.bind fun _ _ _ h ↦ .pure h

theorem mono (hm : Mirrors Q m s m' t) (h : ∀ u v, Q u v → R u v) : Mirrors R m s m' t :=
  ensures_mono (fun _ _ he ↦ he) (fun _ u ⟨v, hv, huv⟩ ↦ ⟨v, hv, h u v huv⟩) hm

/-- The same branch. -/
theorem ite {p : Prop} [Decidable p] {n n' : Prog σ ε α} (hm : p → Mirrors R m s m' t)
    (hn : ¬ p → Mirrors R n s n' t) :
    Mirrors R (if p then m else n) s (if p then m' else n') t := by
  split
  · exact hm ‹p›
  · exact hn ‹¬ p›

@[simp] theorem get_bind {f f' : σ → Prog σ ε β} :
    Mirrors R (get >>= f) s (get >>= f') t ↔ Mirrors R (f s) s (f' t) t := Iff.rfl

@[simp] theorem set_bind {f f' : PUnit → Prog σ ε β} :
    Mirrors R (set s' >>= f) s (set t' >>= f') t ↔ Mirrors R (f ⟨⟩) s' (f' ⟨⟩) t' := Iff.rfl

@[simp] theorem modify_bind {g g' : σ → σ} {f f' : PUnit → Prog σ ε β} :
    Mirrors R (modify g >>= f) s (modify g' >>= f') t ↔
      Mirrors R (f ⟨⟩) (g s) (f' ⟨⟩) (g' t) := Iff.rfl

end Mirrors

end Outcomes
