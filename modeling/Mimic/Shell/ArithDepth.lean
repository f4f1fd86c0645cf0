import Mimic.Shell.Arith

/-!
# How deep the arithmetic parser nests

`primary` refuses a parenthesis below `MAX_DEPTH` others, so parentheses alone cost at most
`MAX_DEPTH + 1` rounds through the five functions. `unary` calls itself for a prefix operator and
has no such guard: a run of `n` signs opens `n` frames, whatever `MAX_DEPTH` is
(`nesting_unbounded`).

The frames a text needs are governed by its longest run of consecutive `+` and `-` tokens
(`longestRun`).

* **Enough**: with runs of at most `k` signs, `33 * (k + 5)` frames are enough for every text
  (`fitsIn_of_signRun_le`). Each level of parentheses costs the five functions and one run.
* **Needed**: an accepted text is consumed to its end, so each of its runs was parsed, all but the
  first sign of it by `unary` calling itself (`signRun_le_of_fitsIn`).

More frames never change an outcome other than an overflow (`evalWith_mono`), so the number of
frames `eval` is given is of no consequence (`eval_eq_some_iff`).
-/

namespace Mimic

namespace Arith

variable {classes : CharClasses} {env : Env} {frames depth fuel k d : ℕ} {level : Level}
  {tokens rest pre ts : List Token} {value left : Int64} {expr : Str}
  {operand operand' f : List Token → Outcome}

/-! ### Runs of signs -/

/-- The prefix operators. -/
def isSign : Token → Bool
  | .op .add | .op .sub => true
  | _ => false

/-- How many signs a token list starts with. -/
def leadingSigns : List Token → ℕ
  | [] => 0
  | t :: ts => if isSign t then leadingSigns ts + 1 else 0

/-- The longest run of consecutive signs. -/
def longestRun : List Token → ℕ
  | [] => 0
  | t :: ts => max (leadingSigns (t :: ts)) (longestRun ts)

/-- The longest run of consecutive `+` and `-` tokens of a text. -/
def signRun (classes : CharClasses) (expr : Str) : ℕ :=
  ((tokenize classes expr).map longestRun).getD 0

/-- What a token list can start with, as `unary` sees it. -/
theorem sign_cases (tokens : List Token) : (∃ rest, tokens = .op .sub :: rest) ∨
    (∃ rest, tokens = .op .add :: rest) ∨ ∀ t ∈ tokens.head?, isSign t = false := by
  rcases tokens with - | ⟨⟨v⟩ | ⟨n⟩ | ⟨op⟩, rest⟩
  · exact Or.inr (Or.inr fun t ht ↦ by cases ht)
  · exact Or.inr (Or.inr fun t ht ↦ by cases ht; rfl)
  · exact Or.inr (Or.inr fun t ht ↦ by cases ht; rfl)
  · cases op with
    | sub => exact Or.inl ⟨rest, rfl⟩
    | add => exact Or.inr (Or.inl ⟨rest, rfl⟩)
    | _ => exact Or.inr (Or.inr fun t ht ↦ by cases ht; rfl)

theorem unary_of_plain (h : ∀ t ∈ tokens.head?, isSign t = false) :
    unary env (frames + 1) depth tokens = primary env frames depth tokens := by
  rcases tokens with - | ⟨t, rest⟩
  · rw [unary]
    · intro rest h'; cases h'
    · intro rest h'; cases h'
  · have ht := h t rfl
    rw [unary]
    · rintro rest' ⟨⟩; cases ht
    · rintro rest' ⟨⟩; cases ht

theorem primary_of_op {op : Op} (h : op ≠ .lparen) :
    primary env (frames + 1) depth (.op op :: rest) = .refused := by
  rw [primary]
  exact h

/-! ### More frames -/

/-- `g` does what `f` does wherever `f` does not overflow. -/
def Extends (f g : List Token → Outcome) : Prop :=
  ∀ tokens, f tokens ≠ .overflow → g tokens = f tokens

theorem binaryLoop_mono (h : Extends operand operand') (fuel : ℕ) :
    ∀ left tokens, binaryLoop level operand fuel left tokens ≠ .overflow →
      binaryLoop level operand' fuel left tokens = binaryLoop level operand fuel left tokens := by
  induction fuel with
  | zero => intro left tokens _; rfl
  | succ fuel ih =>
    intro left tokens hne
    rcases tokens with - | ⟨⟨v⟩ | ⟨n⟩ | ⟨op⟩, rest⟩
    · rfl
    · rfl
    · rfl
    · rw [binaryLoop] at hne
      rw [binaryLoop, binaryLoop]
      rcases hlevel : level op with - | apply
      · rfl
      rw [hlevel] at hne
      dsimp only at hne ⊢
      have hrest : operand rest ≠ .overflow := fun ho ↦ by simp [ho, Outcome.bind] at hne
      rw [h rest hrest]
      rcases hop : operand rest with - | - | ⟨right, rest'⟩
      · rfl
      · rfl
      · simp only [hop, Outcome.bind] at hne ⊢
        rcases happly : apply left right with - | value
        · rfl
        · rw [happly] at hne
          exact ih value rest' hne

theorem binary_mono (h : Extends operand operand') :
    Extends (binary level operand) (binary level operand') := by
  intro tokens hne
  rw [binary] at hne
  have htokens : operand tokens ≠ .overflow := fun ho ↦ by simp [ho, Outcome.bind] at hne
  rw [binary, binary, h tokens htokens]
  rcases hop : operand tokens with - | - | ⟨left, rest⟩
  · rfl
  · rfl
  · rw [hop] at hne
    exact binaryLoop_mono h _ left rest hne

/-- One frame more changes nothing but overflows. -/
theorem extends_succ (env : Env) (frames : ℕ) : ∀ depth,
    Extends (comparison env frames depth) (comparison env (frames + 1) depth) ∧
    Extends (additive env frames depth) (additive env (frames + 1) depth) ∧
    Extends (multiplicative env frames depth) (multiplicative env (frames + 1) depth) ∧
    Extends (unary env frames depth) (unary env (frames + 1) depth) ∧
    Extends (primary env frames depth) (primary env (frames + 1) depth) := by
  induction frames with
  | zero =>
    intro depth
    simp only [Extends, comparison, additive, multiplicative, unary, primary]
    simp
  | succ frames ih =>
    intro depth
    obtain ⟨hcmp, hadd, hmul, hun, hprim⟩ := ih depth
    refine ⟨?_, ?_, ?_, ?_, ?_⟩
    · intro tokens hne
      rw [comparison] at hne
      rw [comparison, comparison]
      exact binary_mono hadd tokens hne
    · intro tokens hne
      rw [additive] at hne
      rw [additive, additive]
      exact binary_mono hmul tokens hne
    · intro tokens hne
      rw [multiplicative] at hne
      rw [multiplicative, multiplicative]
      exact binary_mono hun tokens hne
    · intro tokens hne
      -- a sign is where a level calls itself
      rcases sign_cases tokens with ⟨rest, rfl⟩ | ⟨rest, rfl⟩ | hplain
      · rw [unary] at hne
        have hrest : unary env frames depth rest ≠ .overflow := fun ho ↦ by
          simp [ho, Outcome.bind] at hne
        rw [unary, unary, hun rest hrest]
      · rw [unary] at hne
        rw [unary, unary, hun rest hne]
      · rw [unary_of_plain hplain] at hne
        rw [unary_of_plain hplain, unary_of_plain hplain, hprim tokens hne]
    · intro tokens hne
      rcases tokens with - | ⟨⟨v⟩ | ⟨n⟩ | ⟨op⟩, rest⟩
      · rw [primary, primary]
      · rw [primary, primary]
      · rw [primary, primary]
      · by_cases hop : op = .lparen
        -- behind a parenthesis the whole grammar starts over, one level deeper
        · subst hop
          rw [primary] at hne
          rw [primary, primary]
          split
          · rfl
          · rename_i hdepth
            rw [if_neg hdepth] at hne
            have hrest : comparison env frames (depth + 1) rest ≠ .overflow := fun ho ↦ by
              simp [ho, Outcome.bind] at hne
            rw [(ih (depth + 1)).1 rest hrest]
        · rw [primary_of_op hop, primary_of_op hop]

theorem comparison_mono (env : Env) (depth : ℕ) (h : frames ≤ k) :
    Extends (comparison env frames depth) (comparison env k depth) := by
  induction k, h using Nat.le_induction with
  | base => exact fun _ _ ↦ rfl
  | succ k _ ih =>
    intro tokens hne
    have hk := ih tokens hne
    rw [(extends_succ env k depth).1 tokens (hk ▸ hne), hk]

/-- **More frames never change an outcome other than an overflow.** -/
theorem evalWith_mono (h : frames ≤ k) (hfits : FitsIn classes frames env expr) :
    evalWith classes k env expr = evalWith classes frames env expr := by
  rw [FitsIn, evalWith] at hfits
  rw [evalWith, evalWith]
  rcases htok : tokenize classes expr with - | tokens
  · rfl
  · rw [htok] at hfits
    dsimp only at hfits ⊢
    have hne : comparison env frames 0 tokens ≠ .overflow := fun ho ↦ by
      simp [ho, Outcome.bind] at hfits
    rw [comparison_mono env 0 h tokens hne]

/-! ### What a call consumes -/

theorem leadingSigns_le_longestRun (tokens : List Token) :
    leadingSigns tokens ≤ longestRun tokens := by
  rcases tokens with - | ⟨t, tokens⟩
  · exact le_rfl
  · exact le_max_left _ _

theorem longestRun_tail_le {t : Token} : longestRun tokens ≤ longestRun (t :: tokens) :=
  le_max_right _ _

theorem longestRun_le_append (pre rest : List Token) :
    longestRun rest ≤ longestRun (pre ++ rest) := by
  induction pre with
  | nil => exact le_rfl
  | cons t pre ih => exact ih.trans longestRun_tail_le

/-- The tokens one call consumes: they end with an operand, start with at most `d` signs and hold
no run of more than `d + 1`. -/
structure Shape (d : ℕ) (pre : List Token) : Prop where
  ends : ∃ init last, pre = init ++ [last] ∧ isSign last = false
  leading : leadingSigns pre ≤ d
  longest : longestRun pre ≤ d + 1

theorem Shape.mono (h : Shape d pre) (hle : d ≤ k) : Shape k pre :=
  ⟨h.ends, h.leading.trans hle, h.longest.trans (Nat.succ_le_succ hle)⟩

/-- Signs do not run on past an operand. -/
theorem leadingSigns_append {init : List Token} {last : Token} (h : isSign last = false)
    (rest : List Token) :
    leadingSigns (init ++ [last] ++ rest) = leadingSigns (init ++ [last]) := by
  induction init with
  | nil => simp [leadingSigns, h]
  | cons t init ih =>
    simp only [List.cons_append, leadingSigns] at ih ⊢
    rw [ih]

theorem longestRun_append {init : List Token} {last : Token} (h : isSign last = false)
    (rest : List Token) :
    longestRun (init ++ [last] ++ rest) =
      max (longestRun (init ++ [last])) (longestRun rest) := by
  induction init with
  | nil => simp [longestRun, leadingSigns, h]
  | cons t init ih =>
    have hlead : leadingSigns (t :: init ++ [last] ++ rest) = leadingSigns (t :: init ++ [last]) :=
      leadingSigns_append h rest
    simp only [List.cons_append, longestRun] at ih hlead ⊢
    rw [hlead, ih, max_assoc]

/-- An operator between two operands adds one sign to a run at most. -/
theorem Shape.join {init : List Token} (op : Op) (h : Shape d pre) (h' : Shape d init) :
    Shape d (pre ++ .op op :: init) := by
  obtain ⟨front, last, rfl, hlast⟩ := h.ends
  obtain ⟨front', last', rfl, hlast'⟩ := h'.ends
  refine ⟨⟨front ++ [last] ++ .op op :: front', last', by simp, hlast'⟩, ?_, ?_⟩
  · rw [leadingSigns_append hlast]
    exact h.leading
  · rw [longestRun_append hlast]
    refine max_le h.longest (max_le ?_ h'.longest)
    rw [leadingSigns]
    split
    · exact Nat.succ_le_succ h'.leading
    · exact Nat.zero_le _

/-- `f` consumes a `Shape`. -/
def Parses (d : ℕ) (f : List Token → Outcome) : Prop :=
  ∀ tokens value rest, f tokens = .ok value rest → ∃ pre, tokens = pre ++ rest ∧ Shape d pre

theorem binaryLoop_parses (h : Parses d operand) (fuel : ℕ) :
    ∀ left tokens value rest, binaryLoop level operand fuel left tokens = .ok value rest →
      ∀ {pre}, Shape d pre → ∃ pre', pre ++ tokens = pre' ++ rest ∧ Shape d pre' := by
  induction fuel with
  | zero =>
    intro left tokens value rest hok pre hpre
    simp only [binaryLoop, Outcome.ok.injEq] at hok
    exact ⟨pre, by rw [hok.2], hpre⟩
  | succ fuel ih =>
    intro left tokens value rest hok pre hpre
    rcases tokens with - | ⟨⟨v⟩ | ⟨n⟩ | ⟨op⟩, tokens⟩
    · simp only [binaryLoop, Outcome.ok.injEq] at hok
      exact ⟨pre, by rw [hok.2], hpre⟩
    · simp only [binaryLoop, Outcome.ok.injEq] at hok
      exact ⟨pre, by rw [hok.2], hpre⟩
    · simp only [binaryLoop, Outcome.ok.injEq] at hok
      exact ⟨pre, by rw [hok.2], hpre⟩
    · rw [binaryLoop] at hok
      rcases hlevel : level op with - | apply
      -- an operator of another level ends the loop
      · rw [hlevel] at hok
        obtain ⟨-, rfl⟩ := Outcome.ok.injEq .. ▸ hok
        exact ⟨pre, rfl, hpre⟩
      rw [hlevel] at hok
      dsimp only at hok
      rcases hop : operand tokens with - | - | ⟨right, tokens'⟩
      · simp [hop, Outcome.bind] at hok
      · simp [hop, Outcome.bind] at hok
      · simp only [hop, Outcome.bind] at hok
        obtain ⟨mid, rfl, hmid⟩ := h tokens right tokens' hop
        rcases happly : apply left right with - | result
        · simp [happly] at hok
        · rw [happly] at hok
          obtain ⟨pre', hpre', hshape⟩ := ih result tokens' value rest hok (hpre.join op hmid)
          exact ⟨pre', by rw [← hpre']; simp, hshape⟩

theorem binary_parses (h : Parses d operand) : Parses d (binary level operand) := by
  intro tokens value rest hok
  rw [binary] at hok
  rcases hop : operand tokens with - | - | ⟨left, tokens'⟩
  · simp [hop, Outcome.bind] at hok
  · simp [hop, Outcome.bind] at hok
  · simp only [hop, Outcome.bind] at hok
    obtain ⟨pre, rfl, hpre⟩ := h tokens left tokens' hop
    exact binaryLoop_parses h _ left tokens' value rest hok hpre

theorem Shape.sign {t : Token} (ht : isSign t = true) (h : Shape d pre) :
    Shape (d + 1) (t :: pre) := by
  obtain ⟨⟨init, last, rfl, hlast⟩, hlead, hlong⟩ := h
  have hcons : leadingSigns (t :: (init ++ [last])) = leadingSigns (init ++ [last]) + 1 := by
    rw [leadingSigns, if_pos ht]
  exact ⟨⟨t :: init, last, rfl, hlast⟩, hcons ▸ Nat.succ_le_succ hlead,
    max_le (hcons ▸ (Nat.succ_le_succ hlead).trans (Nat.le_succ _)) (hlong.trans (Nat.le_succ _))⟩

theorem Shape.single {t : Token} (ht : isSign t = false) : Shape d [t] := by
  refine ⟨⟨[], t, rfl, ht⟩, ?_, ?_⟩
  · simp [leadingSigns, ht]
  · simp [longestRun, leadingSigns, ht]

theorem Shape.parenthesis (h : Shape d pre) :
    Shape d (.op .lparen :: (pre ++ [.op .rparen])) := by
  obtain ⟨init, last, rfl, hlast⟩ := h.ends
  refine ⟨⟨.op .lparen :: (init ++ [last]), .op .rparen, rfl, rfl⟩, Nat.zero_le _, ?_⟩
  rw [longestRun, longestRun_append hlast]
  exact max_le (Nat.zero_le _) (max_le h.longest (Nat.zero_le _))

/-- **What a call with `frames` frames consumes.** -/
theorem parses (env : Env) (frames : ℕ) : ∀ depth,
    Parses frames (comparison env frames depth) ∧ Parses frames (additive env frames depth) ∧
    Parses frames (multiplicative env frames depth) ∧ Parses frames (unary env frames depth) ∧
    Parses frames (primary env frames depth) := by
  -- what fits in fewer frames fits in more
  have mono : ∀ {d f}, Parses d f → Parses (d + 1) f := fun h tokens value rest hok ↦ by
    obtain ⟨pre, hpre, hshape⟩ := h tokens value rest hok
    exact ⟨pre, hpre, hshape.mono (Nat.le_succ _)⟩
  induction frames with
  | zero =>
    intro depth
    simp only [Parses, comparison, additive, multiplicative, unary, primary]
    simp
  | succ frames ih =>
    intro depth
    obtain ⟨-, hadd, hmul, hun, hprim⟩ := ih depth
    refine ⟨?_, ?_, ?_, ?_, ?_⟩
    · intro tokens value rest hok
      rw [comparison] at hok
      exact mono (binary_parses hadd) tokens value rest hok
    · intro tokens value rest hok
      rw [additive] at hok
      exact mono (binary_parses hmul) tokens value rest hok
    · intro tokens value rest hok
      rw [multiplicative] at hok
      exact mono (binary_parses hun) tokens value rest hok
    · intro tokens value rest hok
      rcases sign_cases tokens with ⟨tokens, rfl⟩ | ⟨tokens, rfl⟩ | hplain
      · rw [unary] at hok
        rcases hrest : unary env frames depth tokens with - | - | ⟨operand, rest'⟩
        · simp [hrest, Outcome.bind] at hok
        · simp [hrest, Outcome.bind] at hok
        · simp only [hrest, Outcome.bind, Outcome.ok.injEq] at hok
          obtain ⟨-, rfl⟩ := hok
          obtain ⟨pre, rfl, hshape⟩ := hun tokens operand rest' hrest
          exact ⟨_, rfl, hshape.sign rfl⟩
      · rw [unary] at hok
        obtain ⟨pre, rfl, hshape⟩ := hun tokens value rest hok
        exact ⟨_, rfl, hshape.sign rfl⟩
      · rw [unary_of_plain hplain] at hok
        exact mono hprim tokens value rest hok
    · intro tokens value rest hok
      rcases tokens with - | ⟨⟨v⟩ | ⟨n⟩ | ⟨op⟩, tokens⟩
      · rw [primary] at hok
        cases hok
      · rw [primary] at hok
        cases hok
        exact ⟨[_], rfl, .single rfl⟩
      · rw [primary] at hok
        cases hok
        exact ⟨[_], rfl, .single rfl⟩
      · by_cases hop : op = .lparen
        · subst hop
          rw [primary] at hok
          split at hok
          · cases hok
          · rcases hin : comparison env frames (depth + 1) tokens with - | - | ⟨inner, rest'⟩
            · simp [hin, Outcome.bind] at hok
            · simp [hin, Outcome.bind] at hok
            · simp only [hin, Outcome.bind] at hok
              obtain ⟨pre, rfl, hshape⟩ := (ih (depth + 1)).1 tokens inner rest' hin
              split at hok
              · cases hok
                exact ⟨_, by simp, (hshape.mono (Nat.le_succ _)).parenthesis⟩
              · cases hok
        · rw [primary_of_op hop] at hok
          cases hok

/-! ### Enough frames -/

/-- `f` does not overflow on tokens whose runs have at most `k` signs. -/
def Copes (k : ℕ) (f : List Token → Outcome) : Prop :=
  ∀ tokens, longestRun tokens ≤ k → f tokens ≠ .overflow

theorem binaryLoop_copes (hcopes : Copes k operand) (hparse : Parses d operand) (fuel : ℕ) :
    ∀ left tokens, longestRun tokens ≤ k →
      binaryLoop level operand fuel left tokens ≠ .overflow := by
  induction fuel with
  | zero => intro left tokens _; simp [binaryLoop]
  | succ fuel ih =>
    intro left tokens hrun
    rcases tokens with - | ⟨⟨v⟩ | ⟨n⟩ | ⟨op⟩, rest⟩
    · simp [binaryLoop]
    · simp [binaryLoop]
    · simp [binaryLoop]
    · rw [binaryLoop]
      rcases level op with - | apply
      · simp
      dsimp only
      have hrest : longestRun rest ≤ k := longestRun_tail_le.trans hrun
      rcases hop : operand rest with - | - | ⟨right, rest'⟩
      · exact absurd hop (hcopes rest hrest)
      · simp [Outcome.bind]
      · simp only [Outcome.bind]
        obtain ⟨pre, rfl, -⟩ := hparse rest right rest' hop
        rcases apply left right with - | value
        · simp
        · exact ih value rest' ((longestRun_le_append pre rest').trans hrest)

theorem binary_copes (hcopes : Copes k operand) (hparse : Parses d operand) :
    Copes k (binary level operand) := by
  intro tokens hrun
  rw [binary]
  rcases hop : operand tokens with - | - | ⟨left, rest⟩
  · exact absurd hop (hcopes tokens hrun)
  · simp [Outcome.bind]
  · obtain ⟨pre, rfl, -⟩ := hparse tokens left rest hop
    exact binaryLoop_copes hcopes hparse _ left rest ((longestRun_le_append pre rest).trans hrun)

/-- Parsing `n` signs takes `n` frames on top of what the operand behind them takes. -/
theorem unary_ne_overflow {p : ℕ} (hprim : ∀ n, p ≤ n → Copes k (primary env n depth))
    (tokens : List Token) :
    ∀ {frames}, leadingSigns tokens + 1 + p ≤ frames → longestRun tokens ≤ k →
      unary env frames depth tokens ≠ .overflow := by
  induction tokens with
  | nil =>
    intro frames hframes hrun
    obtain ⟨n, rfl⟩ := Nat.exists_eq_add_of_le' (show 1 ≤ frames by omega)
    rw [unary_of_plain fun t ht ↦ by cases ht]
    exact hprim n (by simp only [leadingSigns] at hframes; omega) [] hrun
  | cons t tokens ih =>
    intro frames hframes hrun
    obtain ⟨n, rfl⟩ := Nat.exists_eq_add_of_le' (show 1 ≤ frames by omega)
    rcases sign_cases (t :: tokens) with ⟨rest, hcons⟩ | ⟨rest, hcons⟩ | hplain
    · obtain ⟨rfl, rfl⟩ := List.cons_eq_cons.1 hcons
      -- the sign takes a frame, and one sign fewer is to come
      have hlead : leadingSigns (.op .sub :: tokens) = leadingSigns tokens + 1 := rfl
      have hrest : unary env n depth tokens ≠ .overflow :=
        ih (by omega) (longestRun_tail_le.trans hrun)
      rw [unary]
      rcases hun : unary env n depth tokens with - | - | ⟨value, rest⟩
      · exact absurd hun hrest
      · simp [Outcome.bind]
      · simp [Outcome.bind]
    · obtain ⟨rfl, rfl⟩ := List.cons_eq_cons.1 hcons
      have hlead : leadingSigns (.op .add :: tokens) = leadingSigns tokens + 1 := rfl
      rw [unary]
      exact ih (by omega) (longestRun_tail_le.trans hrun)
    · rw [unary_of_plain hplain]
      exact hprim n (by omega) _ hrun

/-- What a level of parentheses adds: the four functions above `primary` and a run of signs. -/
theorem comparison_copes {p : ℕ} (hprim : ∀ n, p ≤ n → Copes k (primary env n depth))
    (h : p + k + 4 ≤ frames) : Copes k (comparison env frames depth) := by
  obtain ⟨n, rfl⟩ := Nat.exists_eq_add_of_le' (show 3 ≤ frames by omega)
  have hun : Copes k (unary env n depth) := fun tokens hrun ↦
    unary_ne_overflow hprim tokens
      (by have := leadingSigns_le_longestRun tokens; omega) hrun
  have hmul : Copes k (multiplicative env (n + 1) depth) := fun tokens hrun ↦ by
    rw [multiplicative]
    exact binary_copes hun (parses env n depth).2.2.2.1 tokens hrun
  have hadd : Copes k (additive env (n + 2) depth) := fun tokens hrun ↦ by
    rw [additive]
    exact binary_copes hmul (parses env (n + 1) depth).2.2.1 tokens hrun
  intro tokens hrun
  rw [comparison]
  exact binary_copes hadd (parses env (n + 2) depth).2.1 tokens hrun

/-- The frames `primary` needs with `levels` more levels of parentheses to come. -/
theorem primary_copes (env : Env) (k levels : ℕ) :
    ∀ depth n, maxDepth ≤ depth + levels → 1 + (k + 5) * levels ≤ n →
      Copes k (primary env n depth) := by
  induction levels with
  | zero =>
    intro depth n hdepth hn tokens hrun
    obtain ⟨n, rfl⟩ := Nat.exists_eq_add_of_le' (show 1 ≤ n by omega)
    rcases tokens with - | ⟨⟨v⟩ | ⟨m⟩ | ⟨op⟩, tokens⟩
    · simp [primary]
    · simp [primary]
    · simp [primary]
    · by_cases hop : op = .lparen
      · subst hop
        -- at the last level the parenthesis is refused before it recurses
        rw [primary, if_pos (show depth ≥ maxDepth from hdepth)]
        simp
      · rw [primary_of_op hop]
        simp
  | succ levels ih =>
    intro depth n hdepth hn tokens hrun
    obtain ⟨n, rfl⟩ := Nat.exists_eq_add_of_le' (show 1 ≤ n by omega)
    rcases tokens with - | ⟨⟨v⟩ | ⟨m⟩ | ⟨op⟩, tokens⟩
    · simp [primary]
    · simp [primary]
    · simp [primary]
    · by_cases hop : op = .lparen
      · subst hop
        rw [primary]
        split
        · simp
        · have hcmp : Copes k (comparison env n (depth + 1)) :=
            comparison_copes (p := 1 + (k + 5) * levels)
              (fun n' hn' ↦ ih (depth + 1) n' (by omega) hn') (by rw [Nat.mul_succ] at hn; omega)
          have hne := hcmp tokens (longestRun_tail_le.trans hrun)
          rcases hin : comparison env n (depth + 1) tokens with - | - | ⟨inner, rest⟩
          · exact absurd hin hne
          · simp [Outcome.bind]
          · simp only [Outcome.bind]
            split <;> simp
      · rw [primary_of_op hop]
        simp

/-- **Enough frames**: runs of at most `k` signs need at most `33 * (k + 5)` frames. -/
theorem fitsIn_of_signRun_le (classes : CharClasses) (env : Env) (h : signRun classes expr ≤ k) :
    FitsIn classes (33 * (k + 5)) env expr := by
  rw [FitsIn, evalWith]
  rcases htok : tokenize classes expr with - | tokens
  · simp
  · rw [signRun, htok, Option.map_some, Option.getD_some] at h
    have hcmp : Copes k (comparison env (33 * (k + 5)) 0) :=
      comparison_copes (p := 1 + (k + 5) * maxDepth)
        (fun n hn ↦ primary_copes env k maxDepth 0 n (by omega) hn) (by rw [maxDepth]; omega)
    dsimp only
    rcases hval : comparison env (33 * (k + 5)) 0 tokens with - | - | ⟨value, rest⟩
    · exact absurd hval (hcmp tokens h)
    · simp [Outcome.bind]
    · simp only [Outcome.bind]
      split <;> simp

/-! ### Frames needed -/

/-- **Frames needed**: a text accepted with `frames` frames has no run of more than `frames + 1`
signs. -/
theorem signRun_le_of_ok (h : evalWith classes frames env expr = .ok value rest) :
    signRun classes expr ≤ frames + 1 := by
  rw [evalWith] at h
  rcases htok : tokenize classes expr with - | tokens
  · rw [htok] at h
    cases h
  · rw [htok] at h
    dsimp only at h
    rw [signRun, htok, Option.map_some, Option.getD_some]
    rcases hval : comparison env frames 0 tokens with - | - | ⟨result, rest'⟩
    · simp [hval, Outcome.bind] at h
    · simp [hval, Outcome.bind] at h
    · simp only [hval, Outcome.bind] at h
      split at h
      · rename_i hnil
        obtain ⟨pre, rfl, hshape⟩ := (parses env frames 0).1 tokens result rest' hval
        rw [hnil, List.append_nil]
        exact hshape.longest
      · cases h

/-! ### The bounds on the loops -/

theorem length_dropWhile_cons_le {c : Char} {cs : List Char} {p : Char → Bool} (h : p c = true) :
    ((c :: cs).dropWhile p).length ≤ cs.length := by
  rw [List.dropWhile_cons_of_pos h]
  exact (List.dropWhile_suffix p).length_le

theorem isAlphanum_of_isDigit {c : Char} (h : c.isDigit = true) : c.isAlphanum = true := by
  rw [Char.isAlphanum, h, Bool.or_true]

theorem isNameChar_of_start {c : Char} (h : (classes.isAlphabetic c || c == '_') = true) :
    (classes.isAlphanumeric c || c == '_') = true := by
  rw [CharClasses.isAlphanumeric]
  rcases Bool.or_eq_true_iff.1 h with h | h <;> simp [h]

/-- The characters left are bound enough for the tokenizer, and there is no more than one token per
character. -/
theorem tokenizeLoop_spec (classes : CharClasses) (fuel : ℕ) :
    ∀ cs : List Char, cs.length ≤ fuel →
      tokenizeLoop classes fuel cs = tokenizeLoop classes (fuel + 1) cs ∧
        ∀ tokens, tokenizeLoop classes fuel cs = some tokens → tokens.length ≤ cs.length := by
  induction fuel with
  | zero =>
    intro cs hcs
    obtain rfl := List.length_eq_zero_iff.1 (Nat.le_zero.1 hcs)
    refine ⟨by rw [tokenizeLoop, tokenizeLoop], fun tokens h ↦ ?_⟩
    rw [tokenizeLoop] at h
    cases h
    exact le_rfl
  | succ fuel ih =>
    intro cs hcs
    rcases cs with - | ⟨c, cs⟩
    · refine ⟨by rw [tokenizeLoop, tokenizeLoop], fun tokens h ↦ ?_⟩
      rw [tokenizeLoop] at h
      cases h
      exact le_rfl
    have hcs' : cs.length ≤ fuel := Nat.le_of_succ_le_succ hcs
    -- one token is put in front of those of a shorter text
    have hcons : ∀ (rest : List Char) (t : Token), rest.length ≤ cs.length →
        (tokenizeLoop classes fuel rest).map (t :: ·) =
            (tokenizeLoop classes (fuel + 1) rest).map (t :: ·) ∧
          ∀ tokens, (tokenizeLoop classes fuel rest).map (t :: ·) = some tokens →
            tokens.length ≤ (c :: cs).length := by
      intro rest t hrest
      obtain ⟨hfuel, hlen⟩ := ih rest (hrest.trans hcs')
      refine ⟨by rw [hfuel], fun tokens htokens ↦ ?_⟩
      obtain ⟨tail, htail, rfl⟩ := Option.map_eq_some_iff.1 htokens
      exact Nat.succ_le_succ ((hlen tail htail).trans hrest)
    rw [tokenizeLoop, tokenizeLoop]
    split
    · obtain ⟨hfuel, hlen⟩ := ih cs hcs'
      exact ⟨hfuel, fun tokens h ↦ (hlen tokens h).trans (Nat.le_succ _)⟩
    split
    · rename_i hdigit
      dsimp only
      rcases parseLiteral ((c :: cs).takeWhile Char.isAlphanum) with - | value
      · exact ⟨rfl, fun tokens h ↦ by cases h⟩
      · exact hcons _ _ (length_dropWhile_cons_le (isAlphanum_of_isDigit hdigit))
    split
    · rename_i hstart
      exact hcons _ _ (length_dropWhile_cons_le (isNameChar_of_start hstart))
    rcases twoCharOp ((c :: cs).take 2) with - | op
    · rcases oneCharOp c with - | op
      · exact ⟨rfl, fun tokens h ↦ by cases h⟩
      · exact hcons cs _ le_rfl
    · refine hcons _ _ ?_
      rw [List.length_drop]
      exact Nat.sub_le _ _

/-- The tokens left are bound enough for an operator loop. -/
theorem binaryLoop_fuel_irrelevant (h : Parses d operand) (fuel : ℕ) :
    ∀ left tokens, tokens.length ≤ fuel →
      binaryLoop level operand (fuel + 1) left tokens =
        binaryLoop level operand fuel left tokens := by
  induction fuel with
  | zero =>
    intro left tokens hlen
    obtain rfl := List.length_eq_zero_iff.1 (Nat.le_zero.1 hlen)
    rfl
  | succ fuel ih =>
    intro left tokens hlen
    rcases tokens with - | ⟨⟨v⟩ | ⟨n⟩ | ⟨op⟩, tokens⟩
    · rfl
    · rfl
    · rfl
    · rw [binaryLoop, binaryLoop]
      rcases level op with - | apply
      · rfl
      dsimp only
      rcases hop : operand tokens with - | - | ⟨right, rest⟩
      · rfl
      · rfl
      · simp only [Outcome.bind]
        rcases apply left right with - | value
        · rfl
        · obtain ⟨pre, rfl, -⟩ := h tokens right rest hop
          refine ih value rest ?_
          rw [List.length_cons, List.length_append] at hlen
          omega

theorem longestRun_le_length (tokens : List Token) : longestRun tokens ≤ tokens.length := by
  have hlead : ∀ ts : List Token, leadingSigns ts ≤ ts.length := by
    intro ts
    induction ts with
    | nil => exact le_rfl
    | cons t ts ih =>
      rw [leadingSigns]
      split
      · exact Nat.succ_le_succ ih
      · exact Nat.zero_le _
  induction tokens with
  | nil => exact le_rfl
  | cons t tokens ih => exact max_le (hlead _) (ih.trans (Nat.le_succ _))

theorem signRun_le_length (classes : CharClasses) (expr : Str) :
    signRun classes expr ≤ expr.length := by
  rw [signRun]
  rcases htok : tokenize classes expr with - | tokens
  · exact Nat.zero_le _
  · exact (longestRun_le_length tokens).trans
      ((tokenizeLoop_spec classes expr.length expr le_rfl).2 tokens htok)

/-- `eval` never runs out of frames. -/
theorem fitsIn_eval (classes : CharClasses) (env : Env) (expr : Str) :
    FitsIn classes (165 + 33 * expr.length) env expr := by
  have h := fitsIn_of_signRun_le classes env (signRun_le_length classes expr)
  rwa [show 33 * (expr.length + 5) = 165 + 33 * expr.length by omega] at h

/-- An accepted text needs the frames for its longest run. -/
theorem signRun_le_of_fitsIn (h : (eval classes env expr).isSome)
    (hfits : FitsIn classes frames env expr) : signRun classes expr ≤ frames + 1 := by
  rw [eval] at h
  rcases hval : evalWith classes (165 + 33 * expr.length) env expr with - | - | ⟨value, rest⟩
  · simp [hval] at h
  · simp [hval] at h
  · rcases Nat.le_total frames (165 + 33 * expr.length) with hle | hle
    · rw [evalWith_mono hle hfits] at hval
      exact signRun_le_of_ok hval
    · exact (signRun_le_of_ok hval).trans (Nat.succ_le_succ hle)

/-- **When the parser's recursion is bounded.** On any collection of environments and texts whose
runs of signs are bounded by `k`, no evaluation nests deeper than `33 * (k + 5)` calls; and on a
collection of accepted texts the nesting is bounded by a constant if and only if the runs of signs
are. -/
theorem nesting_bounded_iff (classes : CharClasses) (inputs : Set (Env × Str)) :
    (∀ k, (∀ e ∈ inputs, signRun classes e.2 ≤ k) →
        ∀ e ∈ inputs, FitsIn classes (33 * (k + 5)) e.1 e.2) ∧
      ((∀ e ∈ inputs, (eval classes e.1 e.2).isSome) →
        ((∃ frames, ∀ e ∈ inputs, FitsIn classes frames e.1 e.2) ↔
          ∃ k, ∀ e ∈ inputs, signRun classes e.2 ≤ k)) := by
  have henough : ∀ k, (∀ e ∈ inputs, signRun classes e.2 ≤ k) →
      ∀ e ∈ inputs, FitsIn classes (33 * (k + 5)) e.1 e.2 :=
    fun k h e he ↦ fitsIn_of_signRun_le classes e.1 (h e he)
  refine ⟨henough, fun haccepted ↦ ⟨?_, ?_⟩⟩
  · rintro ⟨frames, h⟩
    exact ⟨frames + 1, fun e he ↦ signRun_le_of_fitsIn (haccepted e he) (h e he)⟩
  · rintro ⟨k, h⟩
    exact ⟨33 * (k + 5), henough k h⟩

/-! ### The missing guard -/

theorem unary_signs_overflow (env : Env) (depth : ℕ) (rest : List Token) :
    ∀ {frames n}, frames ≤ n →
      unary env frames depth (List.replicate n (.op .sub) ++ rest) = .overflow := by
  intro frames
  induction frames with
  | zero => intro n _; rw [unary]
  | succ frames ih =>
    intro n hn
    obtain ⟨n, rfl⟩ := Nat.exists_eq_add_of_le' (show 1 ≤ n by omega)
    rw [List.replicate_succ, List.cons_append, unary, ih (by omega)]
    rfl

theorem comparison_signs_overflow (env : Env) (depth frames : ℕ) (rest : List Token) :
    comparison env frames depth (List.replicate frames (.op .sub) ++ rest) = .overflow := by
  have hbind : ∀ {level operand tokens}, operand tokens = Outcome.overflow →
      binary level operand tokens = .overflow := fun h ↦ by rw [binary, h]; rfl
  rcases frames with - | - | - | frames
  · rw [comparison]
  · rw [comparison]
    exact hbind (by rw [additive])
  · rw [comparison]
    refine hbind ?_
    rw [additive]
    exact hbind (by rw [multiplicative])
  · rw [comparison]
    refine hbind ?_
    rw [additive]
    refine hbind ?_
    rw [multiplicative]
    exact hbind (unary_signs_overflow env depth rest (by omega))

/-- The text of `n` minus signs and a one. -/
def minuses (n : ℕ) : Str := List.replicate n '-' ++ ['1']

theorem tokenizeLoop_minuses (classes : CharClasses) (n : ℕ) :
    tokenizeLoop classes (n + 1) (minuses n) =
      some (List.replicate n (.op .sub) ++ [.num 1]) := by
  induction n with
  | zero => rfl
  | succ n ih =>
    have halpha : classes.isAlphabetic '-' = false := classes.isAlphabetic_ascii '-' (by decide)
    have htwo : twoCharOp (('-' :: minuses n).take 2) = none := by
      rcases minuses n with - | ⟨c, cs⟩ <;> simp [twoCharOp]
    have hcons : minuses (n + 1) = '-' :: minuses n := rfl
    rw [hcons, tokenizeLoop, if_neg (by decide), if_neg (by decide), halpha,
      if_neg (by decide), htwo, List.replicate_succ, List.cons_append]
    simp only [oneCharOp]
    rw [ih, Option.map_some]

/-- **No constant bounds the nesting**: whatever the bound, that many minus signs exceed it. -/
theorem nesting_unbounded :
    ¬ ∃ classes : CharClasses, ∃ frames, ∀ env expr, FitsIn classes frames env expr := by
  rintro ⟨classes, frames, h⟩
  refine h ∅ (minuses frames) ?_
  have htok : tokenize classes (minuses frames) =
      some (List.replicate frames (.op .sub) ++ [.num 1]) := by
    rw [tokenize, ← tokenizeLoop_minuses classes frames]
    simp [minuses]
  rw [evalWith, htok]
  dsimp only
  rw [comparison_signs_overflow]
  rfl

end Arith

end Mimic
