import Mimic.Text

/-!
# Wildcards

`find -name` matches names with `glob_match` (`commands/fs.rs`): `*` stands for any bytes and `?`
for any one (`Matches`). The matcher keeps the last `*` it has seen and how much of the text that
one has taken, and starts again behind it at a mismatch. It ends within a number of rounds that the
lengths bound (`globLoop_spec`).

To forget the stars before the last is right, since whatever they could still do the last can do as
well (`Expands.of_suffix`). But the matcher compares bytes before it looks for a star, and a `*` of
the pattern that meets a `*` of the text is taken for that byte. So it decides a smaller language
(`Verbatim`), and the language of the wildcards where the two agree (`globMatch_iff`).
-/

namespace Mimic

namespace Glob

/-- The byte of `*`. -/
def asterisk : UInt8 := 0x2a

/-- The byte of `?`. -/
def question : UInt8 := 0x3f

variable {ok : Bytes → Bytes → Prop} {p q r t u w : Bytes} {c x : UInt8}

/-! ### The language -/

/-- The text is obtained from the pattern by replacing each `?` with a byte and each `*` with some
that are fine in front of what follows. -/
inductive Expands (ok : Bytes → Bytes → Prop) : Bytes → Bytes → Prop
  | nil : Expands ok [] []
  | star {p s t : Bytes} : ok s t → Expands ok p t → Expands ok (asterisk :: p) (s ++ t)
  | any {p t : Bytes} (b : UInt8) : Expands ok p t → Expands ok (question :: p) (b :: t)
  | literal {p t : Bytes} {c : UInt8} :
    c ≠ asterisk → c ≠ question → Expands ok p t → Expands ok (c :: p) (c :: t)

/-- The language of the wildcards. -/
def Matches : Bytes → Bytes → Prop := Expands fun _ _ ↦ True

/-- A star is replaced by this where the rest of the text follows. Where the text has a `*`, that
is it. -/
def Verbatim (s t : Bytes) : Prop := ∀ rest, s ++ t = asterisk :: rest → s = [asterisk]

/-! ### The matcher -/

/-- Where the matcher is: in the pattern, in the text, the last `*` seen, and how much of the text
it had consumed. -/
structure GlobState where
  pi : ℕ
  ti : ℕ
  star : Option ℕ
  resume : ℕ

/-- The loop over the text. It gives the place in the pattern at the end of the text, or that there
is no match. -/
def globLoop (p t : Bytes) : ℕ → GlobState → Option (Option ℕ)
  | 0, _ => none
  | rounds + 1, s =>
    if s.ti < t.length then
      if s.pi < p.length ∧ (p[s.pi]? = some question ∨ p[s.pi]? = t[s.ti]?) then
        globLoop p t rounds { s with pi := s.pi + 1, ti := s.ti + 1 }
      else if s.pi < p.length ∧ p[s.pi]? = some asterisk then
        globLoop p t rounds { s with star := some s.pi, resume := s.ti, pi := s.pi + 1 }
      else
        match s.star with
        | some star =>
          -- mismatch: let the last `*` swallow one more byte and retry
          globLoop p t rounds { s with pi := star + 1, resume := s.resume + 1, ti := s.resume + 1 }
        | none => some none
    else some (some s.pi)

/-- The stars at the end of the pattern match nothing. -/
def exhausted (p : Bytes) (pi : ℕ) : Bool :=
  pi + ((p.drop pi).takeWhile (· == asterisk)).length == p.length

/-- The rounds that are enough. -/
def globRounds (p t : Bytes) : ℕ := (t.length + 1) * (p.length + 1)

/-- `glob_match`. -/
def globMatch (p t : Bytes) : Option Bool :=
  (globLoop p t (globRounds p t) ⟨0, 0, none, 0⟩).map fun out ↦ (out.map (exhausted p)).getD false

/-! ### Expansions -/

namespace Expands

theorem mono {ok' : Bytes → Bytes → Prop} (h : Expands ok p t) (hok : ∀ s t, ok s t → ok' s t) :
    Expands ok' p t := by
  induction h with
  | nil => exact .nil
  | star hs _ ih => exact .star (hok _ _ hs) ih
  | any b _ ih => exact .any b ih
  | literal hc hq _ ih => exact .literal hc hq ih

theorem nil_iff : Expands ok [] t ↔ t = [] := by
  constructor
  · intro h
    cases h
    rfl
  · rintro rfl
    exact .nil

theorem star_iff : Expands ok (asterisk :: p) t ↔
    ∃ s t', t = s ++ t' ∧ ok s t' ∧ Expands ok p t' := by
  constructor
  · intro h
    cases h with
    | star hs h => exact ⟨_, _, rfl, hs, h⟩
    | literal hc => exact absurd rfl hc
  · rintro ⟨s, t', rfl, hs, h⟩
    exact .star hs h

theorem any_iff : Expands ok (question :: p) t ↔ ∃ b t', t = b :: t' ∧ Expands ok p t' := by
  constructor
  · intro h
    cases h with
    | any b h => exact ⟨b, _, rfl, h⟩
    | literal _ hq => exact absurd rfl hq
  · rintro ⟨b, t', rfl, h⟩
    exact .any b h

theorem literal_iff (hc : c ≠ asterisk) (hq : c ≠ question) :
    Expands ok (c :: p) t ↔ ∃ t', t = c :: t' ∧ Expands ok p t' := by
  constructor
  · intro h
    cases h with
    | star => exact absurd rfl hc
    | any => exact absurd rfl hq
    | literal _ _ h => exact ⟨_, rfl, h⟩
  · rintro ⟨t', rfl, h⟩
    exact .literal hc hq h

/-- What the matcher does where the bytes agree. -/
theorem cons_iff (h : c = question ∨ c = x) :
    Expands Verbatim (c :: p) (x :: t) ↔ Expands Verbatim p t := by
  by_cases hq : c = question
  · subst hq
    rw [any_iff]
    constructor
    · rintro ⟨b, t', heq, h⟩
      cases heq
      exact h
    · exact fun h ↦ ⟨x, t, rfl, h⟩
  obtain rfl := h.resolve_left hq
  by_cases hc : c = asterisk
  · subst hc
    rw [star_iff]
    constructor
    · rintro ⟨s, t', heq, hs, h⟩
      obtain rfl := hs t heq.symm
      cases heq
      exact h
    · refine fun h ↦ ⟨[asterisk], t, rfl, fun rest _ ↦ rfl, h⟩
  · rw [literal_iff hc hq]
    constructor
    · rintro ⟨t', heq, h⟩
      cases heq
      exact h
    · exact fun h ↦ ⟨t, rfl, h⟩

/-- What a star can do where the text has another byte. -/
theorem star_cons_iff (hx : x ≠ asterisk) :
    Expands Verbatim (asterisk :: p) (x :: t) ↔ ∃ w, w <:+ x :: t ∧ Expands Verbatim p w := by
  rw [star_iff]
  constructor
  · rintro ⟨s, t', heq, -, h⟩
    exact ⟨t', ⟨s, heq.symm⟩, h⟩
  · rintro ⟨w, ⟨s, hs⟩, h⟩
    refine ⟨s, w, hs.symm, fun rest hrest ↦ ?_, h⟩
    rw [hs] at hrest
    cases hrest
    exact absurd rfl hx

/-- Nothing else matches where neither agrees. -/
theorem not_cons (hc : ∀ c ∈ p.head?, c ≠ question ∧ c ≠ x ∧ c ≠ asterisk) :
    ¬ Expands Verbatim p (x :: t) := by
  intro h
  rcases p with - | ⟨c, p⟩
  · cases nil_iff.1 h
  · obtain ⟨hq, hx, hstar⟩ := hc c rfl
    obtain ⟨t', heq, -⟩ := (literal_iff hstar hq).1 h
    cases heq
    exact hx rfl

/-- Only stars match nothing. -/
theorem nil_right_iff : Expands Verbatim p [] ↔ ∀ c ∈ p, c = asterisk := by
  constructor
  · intro h
    generalize ht : ([] : Bytes) = t at h
    induction h with
    | nil => exact nofun
    | star _ _ ih =>
      obtain ⟨-, ht'⟩ := List.append_eq_nil_iff.1 ht.symm
      exact fun c hc ↦ (List.mem_cons.1 hc).elim id (ih ht'.symm c)
    | any => cases ht
    | literal => cases ht
  · intro h
    induction p with
    | nil => exact .nil
    | cons c p ih =>
      obtain rfl := h c List.mem_cons_self
      exact .star (s := []) nofun (ih fun c hc ↦ h c (List.mem_cons_of_mem _ hc))

/-- **The stars before the last can be forgotten.** Where the pattern up to the last star agrees
with the text byte for byte, what it matches farther on leaves no more of the text to the last star.
-/
theorem of_suffix (hagree : List.Forall₂ (fun c x ↦ c = question ∨ c = x) q u)
    (hw : w <:+ u ++ t) (h : Expands Verbatim (q ++ r) w) :
    ∃ w', w' <:+ t ∧ Expands Verbatim r w' := by
  induction hagree generalizing w with
  | nil => exact ⟨w, hw, h⟩
  | @cons c x q u hcx hagree ih =>
    -- once a byte is consumed, what is left is behind `x`
    have htail : ∀ {b w'}, b :: w' <:+ x :: (u ++ t) → w' <:+ u ++ t := fun hw ↦ by
      rcases List.suffix_cons_iff.1 hw with heq | hw
      · cases heq
        exact List.suffix_rfl
      · exact (List.suffix_cons _ _).trans hw
    rw [List.cons_append] at h hw
    by_cases hq : c = question
    · subst hq
      obtain ⟨b, w', rfl, h'⟩ := any_iff.1 h
      exact ih (htail hw) h'
    by_cases hc : c = asterisk
    · subst hc
      obtain rfl := hcx.resolve_left hq
      obtain ⟨s, w', rfl, hs, h⟩ := star_iff.1 h
      refine ih ?_ h
      rcases List.suffix_cons_iff.1 hw with heq | hw
      · obtain rfl := hs _ heq
        cases heq
        exact List.suffix_rfl
      · exact (List.suffix_append s w').trans hw
    · obtain ⟨w', rfl, h'⟩ := (literal_iff hc hq).1 h
      exact ih (htail hw) h'

end Expands

/-! ### What the matcher decides -/

/-- What the matcher has found out: behind the last star, pattern and text agree up to where it is.
-/
structure Along (p t : Bytes) (s : GlobState) : Prop where
  pi_le : s.pi ≤ p.length
  resume_le : s.resume ≤ s.ti
  star_lt : ∀ star, s.star = some star → star < p.length
  agree : ∀ star, s.star = some star → ∃ q u, p.drop (star + 1) = q ++ p.drop s.pi ∧
    t.drop s.resume = u ++ t.drop s.ti ∧ List.Forall₂ (fun c x ↦ c = question ∨ c = x) q u

/-- The matcher can still find a match: from where it is, or with more of the text for the last
star. -/
def Open (p t : Bytes) (s : GlobState) : Prop :=
  Expands Verbatim (p.drop s.pi) (t.drop s.ti) ∨ ∃ star, s.star = some star ∧
    ∃ w, w <:+ t.drop (s.resume + 1) ∧ Expands Verbatim (p.drop (star + 1)) w

theorem exhausted_iff {pi : ℕ} (h : pi ≤ p.length) :
    exhausted p pi = true ↔ ∀ c ∈ p.drop pi, c = asterisk := by
  have hlen : (p.drop pi).length = p.length - pi := List.length_drop
  have hle : ((p.drop pi).takeWhile (· == asterisk)).length ≤ (p.drop pi).length :=
    (List.takeWhile_prefix _).length_le
  rw [exhausted, beq_iff_eq]
  constructor
  · intro heq c hc
    have hall : (p.drop pi).takeWhile (· == asterisk) = p.drop pi :=
      (List.takeWhile_prefix _).eq_of_length (by omega)
    rw [← hall] at hc
    exact eq_of_beq (List.mem_takeWhile_imp (p := fun c ↦ c == asterisk) hc)
  · intro hall
    have heq : (p.drop pi).takeWhile (· == asterisk) = p.drop pi :=
      List.takeWhile_eq_self_iff.2 fun c hc ↦ beq_iff_eq.2 (hall c hc)
    rw [heq]
    omega

/-- **The loop ends, and finds a match if there is one still.** -/
theorem globLoop_spec (p t : Bytes) (rounds : ℕ) : ∀ s, Along p t s →
    (t.length - s.resume) * (p.length + 1) + (p.length - s.pi) < rounds →
      ∃ out, globLoop p t rounds s = some out ∧
        ((out.map (exhausted p)).getD false = true ↔ Open p t s) := by
  induction rounds with
  | zero => exact fun s _ hlt ↦ absurd hlt (Nat.not_lt_zero _)
  | succ rounds ih =>
    intro s hs hlt
    rw [globLoop]
    by_cases hti : s.ti < t.length
    swap
    · -- at the end of the text
      rw [if_neg hti]
      refine ⟨_, rfl, ?_⟩
      have hnil : t.drop s.ti = [] := List.drop_eq_nil_of_le (Nat.not_lt.1 hti)
      rw [Option.map_some, Option.getD_some, exhausted_iff hs.pi_le, ← Expands.nil_right_iff]
      constructor
      · intro h
        exact Or.inl (hnil ▸ h)
      · rintro (h | ⟨star, hstar, w, hw, h⟩)
        · exact hnil ▸ h
        · obtain ⟨q, u, hq, hu, hagree⟩ := hs.agree star hstar
          rw [hnil] at hu
          rw [hq] at h
          have hw' : w <:+ u ++ [] := by
            rw [← hu]
            refine hw.trans ?_
            rw [← List.drop_drop]
            exact List.drop_suffix _ _
          obtain ⟨w', hw', h⟩ := Expands.of_suffix hagree hw' h
          rwa [List.suffix_nil.1 hw'] at h
    rw [if_pos hti]
    obtain ⟨x, hx, htext⟩ : ∃ x, t[s.ti]? = some x ∧ t.drop s.ti = x :: t.drop (s.ti + 1) :=
      ⟨t[s.ti], List.getElem?_eq_getElem hti, List.drop_eq_getElem_cons hti⟩
    have hpattern : ∀ {c}, p[s.pi]? = some c → s.pi < p.length ∧
        p.drop s.pi = c :: p.drop (s.pi + 1) := fun {c} hc ↦ by
      obtain ⟨hlt, rfl⟩ := List.getElem?_eq_some_iff.1 hc
      exact ⟨hlt, List.drop_eq_getElem_cons hlt⟩
    by_cases hmatch : s.pi < p.length ∧ (p[s.pi]? = some question ∨ p[s.pi]? = t[s.ti]?)
    · -- the bytes agree
      rw [if_pos hmatch]
      obtain ⟨c, hc, hcx⟩ : ∃ c, p[s.pi]? = some c ∧ (c = question ∨ c = x) := by
        rcases hmatch.2 with hc | hc
        · exact ⟨_, hc, Or.inl rfl⟩
        · exact ⟨x, hc.trans hx, Or.inr rfl⟩
      obtain ⟨hpi, hdrop⟩ := hpattern hc
      obtain ⟨out, hout, hiff⟩ := ih { s with pi := s.pi + 1, ti := s.ti + 1 }
        ⟨hpi, hs.resume_le.trans (Nat.le_succ _), hs.star_lt, fun star hstar ↦ by
          obtain ⟨q, u, hq, hu, hagree⟩ := hs.agree star hstar
          refine ⟨q ++ [c], u ++ [x], ?_, ?_, List.rel_append hagree (.cons hcx .nil)⟩
          · rw [hq, hdrop, List.append_assoc, List.singleton_append]
          · rw [hu, htext, List.append_assoc, List.singleton_append]⟩
        (by dsimp only; omega)
      refine ⟨out, hout, hiff.trans (or_congr_left ?_)⟩
      rw [hdrop, htext, Expands.cons_iff hcx]
    rw [if_neg hmatch]
    by_cases hstar : s.pi < p.length ∧ p[s.pi]? = some asterisk
    · -- a star
      rw [if_pos hstar]
      obtain ⟨hpi, hdrop⟩ := hpattern hstar.2
      have hne : x ≠ asterisk := by
        rintro rfl
        exact hmatch ⟨hpi, Or.inr (hstar.2.trans hx.symm)⟩
      have hless : (t.length - s.ti) * (p.length + 1) ≤ (t.length - s.resume) * (p.length + 1) :=
        Nat.mul_le_mul_right _ (Nat.sub_le_sub_left hs.resume_le _)
      obtain ⟨out, hout, hiff⟩ := ih { s with star := some s.pi, resume := s.ti, pi := s.pi + 1 }
        ⟨hpi, le_rfl, fun star hstar ↦ Option.some.inj hstar ▸ hpi, fun star hstar ↦ by
          obtain rfl := Option.some.inj hstar
          exact ⟨[], [], rfl, rfl, .nil⟩⟩
        (by dsimp only; omega)
      refine ⟨out, hout, hiff.trans ?_⟩
      -- the new star can do all that was open
      have hopen : Open p t { s with star := some s.pi, resume := s.ti, pi := s.pi + 1 } ↔
          ∃ w, w <:+ t.drop s.ti ∧ Expands Verbatim (p.drop (s.pi + 1)) w := by
        constructor
        · rintro (h | ⟨star, hstar, w, hw, h⟩)
          · exact ⟨_, List.suffix_rfl, h⟩
          · obtain rfl := Option.some.inj hstar
            refine ⟨w, hw.trans ?_, h⟩
            rw [htext]
            exact List.suffix_cons _ _
        · rintro ⟨w, hw, h⟩
          rw [htext, List.suffix_cons_iff, ← htext] at hw
          rcases hw with rfl | hw
          · exact Or.inl h
          · exact Or.inr ⟨s.pi, rfl, w, hw, h⟩
      rw [hopen]
      constructor
      · intro h
        left
        rwa [hdrop, htext, Expands.star_cons_iff hne, ← htext]
      · rintro (h | ⟨star, hstar', w, hw, h⟩)
        · rwa [hdrop, htext, Expands.star_cons_iff hne, ← htext] at h
        · obtain ⟨q, u, hq, hu, hagree⟩ := hs.agree star hstar'
          rw [hq, hdrop] at h
          have hw' : w <:+ u ++ t.drop s.ti := by
            rw [← hu]
            refine hw.trans ?_
            rw [← List.drop_drop]
            exact List.drop_suffix _ _
          obtain ⟨w', hw'', h⟩ := Expands.of_suffix hagree hw' h
          obtain ⟨v, w'', rfl, -, h⟩ := Expands.star_iff.1 h
          exact ⟨w'', (List.suffix_append v w'').trans hw'', h⟩
    rw [if_neg hstar]
    have hnot : ¬ Expands Verbatim (p.drop s.pi) (t.drop s.ti) := by
      rw [htext]
      refine Expands.not_cons fun c hc ↦ ?_
      rw [List.head?_drop] at hc
      have hpi := (hpattern hc).1
      refine ⟨?_, ?_, ?_⟩
      · rintro rfl
        exact hmatch ⟨hpi, Or.inl hc⟩
      · rintro rfl
        exact hmatch ⟨hpi, Or.inr (hc.trans hx.symm)⟩
      · rintro rfl
        exact hstar ⟨hpi, hc⟩
    rcases hlast : s.star with - | star
    · -- no star to go back to
      refine ⟨none, rfl, ?_⟩
      refine iff_of_false nofun ?_
      rintro (h | ⟨star, hstar', -⟩)
      · exact hnot h
      · rw [hlast] at hstar'
        cases hstar'
    · -- one more byte for the last star
      have hle := hs.star_lt star hlast
      obtain ⟨out, hout, hiff⟩ :=
        ih { s with pi := star + 1, resume := s.resume + 1, ti := s.resume + 1 }
          ⟨hle, le_rfl, hs.star_lt, fun star' hstar' ↦ by
            obtain rfl := Option.some.inj (hlast.symm.trans hstar')
            exact ⟨[], [], rfl, rfl, .nil⟩⟩
          (by
            have hres := hs.resume_le
            have hmul : (t.length - s.resume) * (p.length + 1) =
                (t.length - (s.resume + 1)) * (p.length + 1) + (p.length + 1) := by
              rw [← Nat.succ_mul]
              congr 1
              omega
            dsimp only
            omega)
      rw [hlast] at hout
      refine ⟨out, hout, hiff.trans ?_⟩
      have hsuffix : ∀ {w}, w <:+ t.drop (s.resume + 1) ↔
          w = t.drop (s.resume + 1) ∨ w <:+ t.drop (s.resume + 1 + 1) := fun {w} ↦ by
        rw [show t.drop (s.resume + 1 + 1) = (t.drop (s.resume + 1)).drop 1 by rw [List.drop_drop]]
        rcases t.drop (s.resume + 1) with - | ⟨y, rest⟩
        · simp
        · exact List.suffix_cons_iff
      constructor
      · rintro (h | ⟨star', hstar', w, hw, h⟩)
        · exact Or.inr ⟨star, hlast, _, List.suffix_rfl, h⟩
        · exact Or.inr ⟨star', hstar', w, hsuffix.2 (Or.inr hw), h⟩
      · rintro (h | ⟨star', hstar', w, hw, h⟩)
        · exact absurd h hnot
        · rcases hsuffix.1 hw with rfl | hw
          · obtain rfl := Option.some.inj (hlast.symm.trans hstar')
            exact Or.inl h
          · exact Or.inr ⟨star', hstar', w, hw, h⟩

/-- **What the matcher decides**: whether the text is obtained with each star that meets a `*` in
place of that byte. -/
theorem globMatch_eq (p t : Bytes) :
    ∃ b, globMatch p t = some b ∧ (b = true ↔ Expands Verbatim p t) := by
  obtain ⟨out, hout, hiff⟩ := globLoop_spec p t (globRounds p t) ⟨0, 0, none, 0⟩
    ⟨Nat.zero_le _, le_rfl, nofun, nofun⟩ (by
      dsimp only [globRounds]
      rw [Nat.sub_zero, Nat.succ_mul]
      omega)
  refine ⟨_, by rw [globMatch, hout]; rfl, hiff.trans ?_⟩
  constructor
  · rintro (h | ⟨star, hstar, -⟩)
    · exact h
    · cases hstar
  · exact Or.inl

/-- Where the text has no `*`, a star is never taken for one. -/
theorem Expands.verbatim (h : Matches p t) (ht : asterisk ∉ t) : Expands Verbatim p t := by
  induction h with
  | nil => exact .nil
  | @star p s t _ _ ih =>
    refine .star (fun rest hrest ↦ absurd ?_ ht) (ih fun hmem ↦ ht (List.mem_append_right s hmem))
    rw [hrest]
    exact List.mem_cons_self
  | any b _ ih => exact .any b (ih fun hmem ↦ ht (List.mem_cons_of_mem _ hmem))
  | literal hc hq _ ih => exact .literal hc hq (ih fun hmem ↦ ht (List.mem_cons_of_mem _ hmem))

/-- **When `glob_match` decides the wildcard language.** It always ends, and its answer is right if
and only if the text, should it match, does so with each star that meets a `*` in place of that
byte. -/
theorem globMatch_iff (p t : Bytes) : (globMatch p t).isSome ∧
    ((globMatch p t = some true ↔ Matches p t) ↔ (Matches p t → Expands Verbatim p t)) := by
  obtain ⟨b, hb, hiff⟩ := globMatch_eq p t
  have hmatch : globMatch p t = some true ↔ Expands Verbatim p t := by
    rw [hb, Option.some_inj]
    exact hiff
  refine ⟨by rw [hb]; rfl, ?_⟩
  rw [hmatch]
  exact ⟨fun h ↦ h.2, fun h ↦ ⟨fun h ↦ h.mono fun _ _ _ ↦ trivial, h⟩⟩

/-- The answer is right for every text without a `*`. -/
theorem globMatch_of_not_mem (ht : asterisk ∉ t) : globMatch p t = some true ↔ Matches p t := by
  obtain ⟨b, hb, hiff⟩ := globMatch_eq p t
  rw [hb, Option.some_inj, hiff]
  exact ⟨fun h ↦ h.mono fun _ _ _ ↦ trivial, fun h ↦ Expands.verbatim h ht⟩

/-- `*b` does not match `*ab`. -/
theorem globMatch_star_star :
    ¬ (globMatch [0x2a, 0x62] [0x2a, 0x61, 0x62] = some true ↔
      Matches [0x2a, 0x62] [0x2a, 0x61, 0x62]) := by
  intro h
  have hmatches : Matches [0x2a, 0x62] ([0x2a, 0x61] ++ [0x62]) :=
    .star trivial (.literal (by decide) (by decide) .nil)
  have hfound := h.2 hmatches
  revert hfound
  decide

end Glob

end Mimic
