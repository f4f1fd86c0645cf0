import Mathlib.Tactic

/-!
# Occurrences of a list in another

A search from left to right finds the first occurrence of a list, goes on behind it, and so finds
occurrences that do not overlap (`hits`). An occurrence is found unless one that is found before it
reaches into it (`mem_hits_iff`).

Replacing the first of them (`replacen`) leaves what is between them as it is (`Replaced`). So the
length of the result is known from how many are replaced (`Replaced.sum_add`).
-/

namespace Occurrences

variable {α : Type*} [DecidableEq α] {a b text pre post out out' : List α} {skip i n m : ℕ}

/-! ### Searching -/

/-- The places of the occurrences that a search finds, with `skip` elements left of the last one. -/
def hitsFrom (a : List α) : ℕ → List α → List ℕ
  | _, [] => []
  | skip + 1, _ :: rest => (hitsFrom a skip rest).map (· + 1)
  | 0, x :: rest =>
    if a <+: x :: rest then 0 :: (hitsFrom a (a.length - 1) rest).map (· + 1)
    else (hitsFrom a 0 rest).map (· + 1)

/-- The places of the occurrences that a search from the left finds. -/
def hits (a text : List α) : List ℕ := hitsFrom a 0 text

theorem mem_map_succ_iff {l : List ℕ} : i + 1 ∈ l.map (· + 1) ↔ i ∈ l := by simp

theorem mem_hitsFrom_iff (ha : a ≠ []) : ∀ {text : List α} {skip i : ℕ},
    i ∈ hitsFrom a skip text ↔ i < text.length ∧ skip ≤ i ∧ a <+: text.drop i ∧
      ∀ j ∈ hitsFrom a skip text, j < i → j + a.length ≤ i := by
  have hlen : 0 < a.length := List.length_pos_iff.2 ha
  intro text
  induction text with
  | nil => intro skip i; simp [hitsFrom]
  | cons x rest ih =>
    intro skip i
    rcases skip with - | skip
    · rw [hitsFrom]
      split
      · rename_i hpre
        rcases i with - | i
        · simp [hpre]
        · rw [List.mem_cons, mem_map_succ_iff, ih]
          simp only [List.length_cons, List.drop_succ_cons, List.forall_mem_cons, List.mem_map,
            forall_exists_index, and_imp, forall_apply_eq_imp_iff₂]
          constructor
          · rintro (h | ⟨hi, hskip, hpre', hbefore⟩)
            · exact absurd h (Nat.succ_ne_zero i)
            · exact ⟨by omega, Nat.zero_le _, hpre', fun _ ↦ by omega,
                fun j hj hlt ↦ by have := hbefore j hj (by omega); omega⟩
          · rintro ⟨hi, -, hpre', hzero, hbefore⟩
            have := hzero (Nat.succ_pos i)
            exact Or.inr ⟨by omega, by omega, hpre', fun j hj hlt ↦ by
              have := hbefore j hj (by omega)
              omega⟩
      · rename_i hpre
        rcases i with - | i
        · simp [hpre]
        · rw [mem_map_succ_iff, ih]
          simp only [List.length_cons, List.drop_succ_cons, List.mem_map, forall_exists_index,
            and_imp, forall_apply_eq_imp_iff₂, Nat.zero_le, true_and]
          refine and_congr (by omega) (and_congr_right fun _ ↦ forall₂_congr fun j _ ↦ ?_)
          constructor <;> intro h hlt <;> have := h (by omega) <;> omega
    · rw [hitsFrom]
      rcases i with - | i
      · simp
      · rw [mem_map_succ_iff, ih]
        simp only [List.length_cons, List.drop_succ_cons, List.mem_map, forall_exists_index,
          and_imp, forall_apply_eq_imp_iff₂]
        refine and_congr (by omega) (and_congr (by omega)
          (and_congr_right fun _ ↦ forall₂_congr fun j _ ↦ ?_))
        constructor <;> intro h hlt <;> have := h (by omega) <;> omega

/-- **What a search finds**: the occurrences that none it finds before reaches into. -/
theorem mem_hits_iff (ha : a ≠ []) :
    i ∈ hits a text ↔ i < text.length ∧ a <+: text.drop i ∧
      ∀ j ∈ hits a text, j < i → j + a.length ≤ i := by
  rw [hits, mem_hitsFrom_iff ha]
  simp only [Nat.zero_le, true_and]

theorem length_hits_le (a text : List α) : (hits a text).length ≤ text.length := by
  rw [hits]
  generalize 0 = skip
  induction text generalizing skip with
  | nil =>
    rw [hitsFrom]
    exact le_rfl
  | cons x text ih =>
    rcases skip with - | skip
    · rw [hitsFrom]
      split
      · rw [List.length_cons, List.length_map, List.length_cons]
        exact Nat.succ_le_succ (ih _)
      · rw [List.length_map, List.length_cons]
        exact (ih 0).trans (Nat.le_succ _)
    · rw [hitsFrom, List.length_map, List.length_cons]
      exact (ih skip).trans (Nat.le_succ _)

/-! ### The first occurrence -/

/-- The list begins with `u`, and the first occurrence is behind it. -/
def FirstAt (a u rest : List α) : Prop := ∀ i < u.length, ¬ a <+: (u ++ (a ++ rest)).drop i

variable {u rest : List α}

omit [DecidableEq α] in
/-- **A list without an occurrence, or the first of those it has.** -/
theorem exists_firstAt (h : a <:+: text) :
    ∃ u rest, text = u ++ (a ++ rest) ∧ FirstAt a u rest := by
  classical
  have hex : ∃ i, a <+: text.drop i := by
    obtain ⟨u, v, rfl⟩ := h
    exact ⟨u.length, by simp⟩
  obtain ⟨rest, hrest⟩ := Nat.find_spec hex
  have htext : text = text.take (Nat.find hex) ++ (a ++ rest) := by
    rw [hrest, List.take_append_drop]
  refine ⟨_, rest, htext, fun i hi ↦ ?_⟩
  rw [← htext]
  rw [List.length_take] at hi
  exact Nat.find_min hex (by omega)

theorem hits_eq_nil (ha : a ≠ []) (h : ¬ a <:+: text) : hits a text = [] := by
  refine List.eq_nil_iff_forall_not_mem.mpr fun i hi ↦ h ?_
  have hpre := ((mem_hits_iff ha).mp hi).2.1
  exact hpre.isInfix.trans (List.drop_suffix i text).isInfix

/-- What is left of the last occurrence is stepped over. -/
theorem hitsFrom_length (w : List α) : hitsFrom a w.length (w ++ rest) =
    (hits a rest).map (· + w.length) := by
  induction w with
  | nil => simp [hits]
  | cons x w ih =>
    rw [List.cons_append, List.length_cons, hitsFrom, ih, List.map_map]
    rfl

/-- **The first hit is the first occurrence.** -/
theorem hits_eq_cons (ha : a ≠ []) (h : FirstAt a u rest) : hits a (u ++ (a ++ rest)) =
    u.length :: (hits a rest).map (· + (u.length + a.length)) := by
  induction u with
  | nil =>
    obtain ⟨x, a', rfl⟩ := List.exists_cons_of_ne_nil ha
    rw [hits, List.nil_append, List.cons_append, hitsFrom,
      if_pos (by rw [← List.cons_append]; exact List.prefix_append _ _), List.length_cons,
      Nat.add_sub_cancel, hitsFrom_length, List.map_map]
    simp only [List.length_nil, Nat.zero_add]
    rfl
  | cons x u ih =>
    have hrest : FirstAt a u rest := fun i hi ↦ by
      have := h (i + 1) (by rw [List.length_cons]; omega)
      rwa [List.cons_append, List.drop_succ_cons] at this
    have hnone : ¬ a <+: x :: (u ++ (a ++ rest)) := h 0 (by simp)
    rw [hits, List.cons_append, hitsFrom, if_neg hnone, ← hits, ih hrest, List.map_cons,
      List.map_map, List.length_cons]
    congr 2
    funext n
    simp only [Function.comp_apply]
    omega

/-! ### Replacing -/

/-- Put `b` in place of `len` elements at each of the places, counted from `done` before the list.
-/
def splice (b : List α) (len done : ℕ) : List ℕ → List α → List α
  | [], text => text
  | place :: places, text =>
    text.take (place - done) ++
      (b ++ splice b len (place + len) places (text.drop (place - done + len)))

/-- Replace at most `n` occurrences, those a search from the left finds. -/
def replacen (a b : List α) (n : ℕ) (text : List α) : List α :=
  splice b a.length 0 ((hits a text).take n) text

/-- `out` has `b` in place of the first `n` occurrences of `a`, and ends with what was behind
them. -/
inductive Replaced (a b : List α) : ℕ → List α → List α → List α → Prop
  | refl (text : List α) : Replaced a b 0 text text text
  | step {n : ℕ} {u text out rest : List α} : FirstAt a u text → Replaced a b n text out rest →
    Replaced a b (n + 1) (u ++ (a ++ text)) (u ++ (b ++ out)) rest

omit [DecidableEq α] in
theorem splice_map_add (b text : List α) (k len done : ℕ) (places : List ℕ) :
    splice b len (done + k) (places.map (· + k)) text = splice b len done places text := by
  induction places generalizing done text with
  | nil => rfl
  | cons place places ih =>
    rw [List.map_cons, splice, splice, Nat.add_sub_add_right, Nat.add_right_comm, ih]

theorem replacen_succ (ha : a ≠ []) (h : FirstAt a u rest) :
    replacen a b (n + 1) (u ++ (a ++ rest)) = u ++ (b ++ replacen a b n rest) := by
  have hsplice := splice_map_add b rest (u.length + a.length) a.length 0
    ((hits a rest).take n)
  rw [Nat.zero_add] at hsplice
  rw [replacen, hits_eq_cons ha h, List.take_succ_cons, splice, Nat.sub_zero, List.take_left,
    ← List.drop_drop, List.drop_left, List.drop_left, ← List.map_take, hsplice, replacen]

theorem replacen_of_not_infix (ha : a ≠ []) (h : ¬ a <:+: text) : replacen a b n text = text := by
  rw [replacen, hits_eq_nil ha h, List.take_nil, splice]

theorem replacen_replicate (x : α) (h : m ≤ n) :
    replacen [x] b n (List.replicate m x) = (List.replicate m b).flatten := by
  induction m generalizing n with
  | zero => exact replacen_of_not_infix (List.cons_ne_nil x []) (by simp)
  | succ m ih =>
    obtain ⟨n, rfl⟩ := Nat.exists_eq_add_of_le' (Nat.one_le_of_lt h)
    have hfirst : FirstAt [x] [] (List.replicate m x) := fun i hi ↦ absurd hi (Nat.not_lt_zero i)
    rw [List.replicate_succ, List.replicate_succ, List.flatten_cons,
      ← ih (Nat.le_of_succ_le_succ h)]
    exact replacen_succ (List.cons_ne_nil x []) hfirst

/-- **What is replaced**: all occurrences, or the first `n` of them. -/
theorem exists_replaced (ha : a ≠ []) (n : ℕ) (text : List α) :
    ∃ rest, Replaced a b (min n (hits a text).length) text (replacen a b n text) rest ∧
      ((hits a text).length ≤ n → ¬ a <:+: rest) := by
  induction hlen : text.length using Nat.strong_induction_on generalizing text n with
  | _ len ih =>
    by_cases h : a <:+: text
    · obtain ⟨u, rest, rfl, hfirst⟩ := exists_firstAt h
      have hpos := List.length_pos_iff.mpr ha
      have hcount : (hits a (u ++ (a ++ rest))).length = (hits a rest).length + 1 := by
        rw [hits_eq_cons ha hfirst, List.length_cons, List.length_map]
      rcases n with - | n
      · refine ⟨u ++ (a ++ rest), ?_, fun hle ↦ absurd hle (by omega)⟩
        rw [Nat.zero_min, replacen, List.take_zero, splice]
        exact .refl _
      · obtain ⟨rest', hreplaced, hall⟩ := ih rest.length
          (by rw [← hlen, List.length_append, List.length_append]; omega) n rest rfl
        refine ⟨rest', ?_, fun hle ↦ hall (by omega)⟩
        rw [hcount, Nat.add_min_add_right, replacen_succ ha hfirst]
        exact .step hfirst hreplaced
    · refine ⟨text, ?_, fun _ ↦ h⟩
      rw [hits_eq_nil ha h, List.length_nil, Nat.min_zero, replacen_of_not_infix ha h]
      exact .refl text

omit [DecidableEq α] in
theorem Replaced.eq_of_zero {rest : List α} (h : Replaced a b 0 text out rest) :
    out = text ∧ rest = text := by
  cases h
  exact ⟨rfl, rfl⟩

omit [DecidableEq α] in
/-- Where the list begins with an occurrence, that one is replaced first. -/
theorem Replaced.exists_append {rest : List α}
    (h : Replaced a b (n + 1) (a ++ text) out rest) :
    ∃ out', out = b ++ out' ∧ Replaced a b n text out' rest := by
  generalize hlist : a ++ text = list at h
  obtain ⟨-, -⟩ | ⟨hfirst, h⟩ := h
  rename_i u text' out'
  have hu : u = [] := by
    by_contra hne
    refine hfirst 0 (List.length_pos_iff.mpr hne) ?_
    rw [List.drop_zero, ← hlist]
    exact List.prefix_append a text
  subst hu
  exact ⟨out', rfl, List.append_cancel_left hlist ▸ h⟩

omit [DecidableEq α] in
theorem Replaced.eq_self {rest : List α} (h : Replaced a a n text out rest) : out = text := by
  induction h with
  | refl => rfl
  | step _ _ ih => rw [ih]

omit [DecidableEq α] in
theorem Replaced.mul_length_le {rest : List α} (h : Replaced a b n text out rest) :
    n * a.length ≤ text.length := by
  induction h with
  | refl text => simp
  | step _ _ ih =>
    simp only [List.length_append]
    linarith

omit [DecidableEq α] in
/-- **How long the result is**, by any measure of the elements. -/
theorem Replaced.sum_add {rest : List α} (f : α → ℕ) (h : Replaced a b n text out rest) :
    (out.map f).sum + n * (a.map f).sum = (text.map f).sum + n * (b.map f).sum := by
  induction h with
  | refl text => simp
  | step _ _ ih =>
    simp only [List.map_append, List.sum_append]
    linarith

end Occurrences
