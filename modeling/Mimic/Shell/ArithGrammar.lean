import Mimic.Shell.ArithTokens

/-!
# The grammar of arithmetic expressions

The documented grammar, as derivations (`Derives`): comparisons, sums and products associate to the
left and bind in that order, signs bind tighter, and parentheses nest `MAX_DEPTH` deep at most. The
value of an expression is computed on integers and wraps to 64 bits at every operator
(`Expr.value`).

The parser reads what can be derived (`produces`) and finds every derivation (`completes`). What it
computes is the value, but for one quotient and one remainder: that of `i64::MIN` by `-1` does not
fit, `checked_div` and `checked_rem` have none, and the expression is refused as if it divided by
zero (`eval_implements_iff`).
-/

namespace Mimic

namespace Arith

variable {classes : CharClasses} {env : Env} {frames depth d fuel : ℕ} {op : Op}
  {tokens rest pre ts : List Token} {v left a b : Int64} {expr : Str}

/-! ### Expressions -/

/-- How tight an expression binds. -/
inductive Prec
  | comparison | additive | multiplicative | unary | primary
  deriving DecidableEq

/-- The next tighter kind of expression. -/
def Prec.tighter : Prec → Prec
  | .comparison => .additive
  | .additive => .multiplicative
  | .multiplicative => .unary
  | .unary => .primary
  | .primary => .primary

/-- Its place in the order. -/
def Prec.rank : Prec → ℕ
  | .comparison => 0
  | .additive => 1
  | .multiplicative => 2
  | .unary => 3
  | .primary => 4

/-- The kind of expression an infix operator makes. -/
def Op.prec : Op → Option Prec
  | .eq | .ne | .le | .ge | .lt | .gt => some .comparison
  | .add | .sub => some .additive
  | .mul | .div | .rem => some .multiplicative
  | .lparen | .rparen => none

/-- An arithmetic expression. -/
inductive Expr
  | num (v : Int64)
  | name (text : Str)
  | minus (e : Expr)
  | plus (e : Expr)
  | binary (l : Expr) (op : Op) (r : Expr)

/-- The tokens are an expression of this kind, with `d` parentheses in each other at most. -/
inductive Derives : Prec → ℕ → List Token → Expr → Prop
  | num {d : ℕ} {v : Int64} : Derives .primary d [.num v] (.num v)
  | name {d : ℕ} {text : Str} : Derives .primary d [.name text] (.name text)
  | paren {d : ℕ} {ts : List Token} {e : Expr} :
    Derives .comparison d ts e →
      Derives .primary (d + 1) (.op .lparen :: (ts ++ [.op .rparen])) e
  | minus {d : ℕ} {ts : List Token} {e : Expr} :
    Derives .unary d ts e → Derives .unary d (.op .sub :: ts) (.minus e)
  | plus {d : ℕ} {ts : List Token} {e : Expr} :
    Derives .unary d ts e → Derives .unary d (.op .add :: ts) (.plus e)
  | operand {p : Prec} {d : ℕ} {ts : List Token} {e : Expr} :
    p ≠ .primary → Derives p.tighter d ts e → Derives p d ts e
  | binary {p : Prec} {d : ℕ} {op : Op} {ts ts' : List Token} {l r : Expr} :
    op.prec = some p → Derives p d ts l → Derives p.tighter d ts' r →
      Derives p d (ts ++ .op op :: ts') (.binary l op r)

/-- The text is a sentence of the grammar, read as `e`. -/
def Sentence (classes : CharClasses) (expr : Str) (e : Expr) : Prop :=
  ∃ ts, Lexes classes expr ts ∧ Derives .comparison maxDepth ts e

/-- What an operator computes, on integers. -/
def Op.result : Op → ℤ → ℤ → Option ℤ
  | .eq, a, b => some (if a = b then 1 else 0)
  | .ne, a, b => some (if a ≠ b then 1 else 0)
  | .le, a, b => some (if a ≤ b then 1 else 0)
  | .ge, a, b => some (if a ≥ b then 1 else 0)
  | .lt, a, b => some (if a < b then 1 else 0)
  | .gt, a, b => some (if a > b then 1 else 0)
  | .add, a, b => some (a + b)
  | .sub, a, b => some (a - b)
  | .mul, a, b => some (a * b)
  | .div, a, b => if b = 0 then none else some (a.tdiv b)
  | .rem, a, b => if b = 0 then none else some (a.tmod b)
  | .lparen, _, _ => none
  | .rparen, _, _ => none

/-- What an operator computes in 64 bits, in two's complement. -/
def Op.wrapping (op : Op) (a b : Int64) : Option Int64 :=
  (op.result a.toInt b.toInt).map Int64.ofInt

namespace Expr

/-- The value of an expression, given what the infix operators compute. -/
def evaluate (apply : Op → Int64 → Int64 → Option Int64) (env : Env) : Expr → Option Int64
  | .num v => some v
  | .name text => some (nameValue env text)
  | .minus e => (e.evaluate apply env).map fun a ↦ Int64.ofInt (-a.toInt)
  | .plus e => e.evaluate apply env
  | .binary l op r =>
    (l.evaluate apply env).bind fun a ↦ (r.evaluate apply env).bind fun b ↦ apply op a b

/-- The value of an expression. -/
def value (env : Env) (e : Expr) : Option Int64 := e.evaluate Op.wrapping env

/-- The expression divides `i64::MIN` by `-1`, or takes that remainder. -/
def Overflows (env : Env) : Expr → Prop
  | .num _ => False
  | .name _ => False
  | .minus e => e.Overflows env
  | .plus e => e.Overflows env
  | .binary l op r =>
    l.Overflows env ∨ r.Overflows env ∨
      (op = .div ∨ op = .rem) ∧ l.value env = some Int64.minValue ∧ r.value env = some (-1)

end Expr

/-! ### What the parser computes -/

/-- The operators of a kind of expression, as the parser has them. -/
def Prec.level : Prec → Level
  | .comparison => comparisonLevel
  | .additive => additiveLevel
  | .multiplicative => multiplicativeLevel
  | .unary => fun _ ↦ none
  | .primary => fun _ ↦ none

/-- What the parser computes for an operator. -/
def Op.checked (op : Op) (a b : Int64) : Option Int64 :=
  (op.prec.bind fun p ↦ p.level op).bind fun apply ↦ apply a b

/-- The function of the parser for a kind of expression. -/
def Prec.parse (env : Env) (frames depth : ℕ) : Prec → List Token → Outcome
  | .comparison => Arith.comparison env frames depth
  | .additive => Arith.additive env frames depth
  | .multiplicative => Arith.multiplicative env frames depth
  | .unary => Arith.unary env frames depth
  | .primary => Arith.primary env frames depth

theorem Prec.level_eq_some {p : Prec} {apply : Int64 → Int64 → Option Int64}
    (h : p.level op = some apply) : op.prec = some p ∧ op.checked = apply := by
  have hprec : op.prec = some p := by
    cases p <;> cases op <;> first | rfl | cases h
  refine ⟨hprec, funext fun a ↦ funext fun b ↦ ?_⟩
  rw [Op.checked, hprec, Option.bind_some, h, Option.bind_some]

theorem Prec.exists_level {p : Prec} (h : op.prec = some p) : p.level op = some op.checked := by
  cases op <;> cases p <;> first | rfl | cases h

theorem Prec.level_eq_none {p : Prec} (h : op.prec ≠ some p) : p.level op = none := by
  rcases hlevel : p.level op with - | apply
  · rfl
  · exact absurd (Prec.level_eq_some hlevel).1 h

theorem ofInt_toInt_tdiv (a b : Int64) : Int64.ofInt (a.toInt.tdiv b.toInt) = a / b := by
  rw [← Int64.toInt_inj, Int64.toInt_ofInt, Int64.toInt_div]

theorem ofInt_toInt_tmod (a b : Int64) : Int64.ofInt (a.toInt.tmod b.toInt) = a % b := by
  rw [← Int64.toInt_mod, Int64.ofInt_toInt]

/-- **The operators of the parser wrap**, and one quotient and one remainder are refused. -/
theorem Op.checked_eq (op : Op) (a b : Int64) : op.checked a b =
    if (op = .div ∨ op = .rem) ∧ a = Int64.minValue ∧ b = -1 then none else op.wrapping a b := by
  have hbool : ∀ (p q : Prop) [Decidable p] [Decidable q], (p ↔ q) →
      some (ofBool (decide p)) = (some (if q then (1 : ℤ) else 0)).map Int64.ofInt :=
    fun p q _ _ h ↦ by
      rw [decide_eq_decide.2 h, ofBool]
      by_cases hq : q
      · rw [if_pos hq, decide_eq_true hq]
        rfl
      · rw [if_neg hq, decide_eq_false hq]
        rfl
  have hzero : b.toInt = 0 ↔ b = 0 := by rw [← Int64.toInt_inj]; rfl
  cases op with
  | eq => exact hbool (a = b) _ Int64.toInt_inj.symm
  | ne =>
    show some (ofBool (a != b)) = _
    rw [show (a != b) = decide (a ≠ b) by rw [bne, decide_not]; rfl]
    exact hbool (a ≠ b) _ (not_congr Int64.toInt_inj.symm)
  | le => exact hbool (a ≤ b) _ Int64.le_iff_toInt_le
  | ge => exact hbool (b ≤ a) _ Int64.le_iff_toInt_le
  | lt => exact hbool (a < b) _ Int64.lt_iff_toInt_lt
  | gt => exact hbool (b < a) _ Int64.lt_iff_toInt_lt
  | add =>
    show some (a + b) = some (Int64.ofInt (a.toInt + b.toInt))
    rw [Int64.ofInt_add, Int64.ofInt_toInt, Int64.ofInt_toInt]
  | sub =>
    show some (a - b) = some (Int64.ofInt (a.toInt - b.toInt))
    rw [Int64.ofInt_sub, Int64.ofInt_toInt, Int64.ofInt_toInt]
  | mul =>
    show some (a * b) = some (Int64.ofInt (a.toInt * b.toInt))
    rw [Int64.ofInt_mul, Int64.ofInt_toInt, Int64.ofInt_toInt]
  | div =>
    show checkedDiv a b = _
    rw [checkedDiv, Op.wrapping, Op.result]
    by_cases hb : b = 0
    · rw [if_pos (Or.inl hb), if_pos (hzero.2 hb), Option.map_none, ite_self]
    · rw [if_neg (mt hzero.1 hb), Option.map_some, ofInt_toInt_tdiv]
      simp only [hb, false_or, true_or, true_and]
  | rem =>
    show checkedRem a b = _
    rw [checkedRem, Op.wrapping, Op.result]
    by_cases hb : b = 0
    · rw [if_pos (Or.inl hb), if_pos (hzero.2 hb), Option.map_none, ite_self]
    · rw [if_neg (mt hzero.1 hb), Option.map_some, ofInt_toInt_tmod]
      simp only [hb, false_or, or_true, true_and]
  | lparen => rfl
  | rparen => rfl

/-- **What the parser computes is the value**, unless a division overflows. -/
theorem Expr.evaluate_checked (env : Env) (e : Expr) :
    (e.Overflows env → e.evaluate Op.checked env = none) ∧
      (¬ e.Overflows env → e.evaluate Op.checked env = e.value env) := by
  induction e with
  | num v => exact ⟨False.elim, fun _ ↦ rfl⟩
  | name text => exact ⟨False.elim, fun _ ↦ rfl⟩
  | minus e ih =>
    refine ⟨fun h ↦ ?_, fun h ↦ ?_⟩
    · rw [evaluate, ih.1 h, Option.map_none]
    · rw [evaluate, ih.2 h]
      rfl
  | plus e ih => exact ih
  | binary l op r ihl ihr =>
    rw [evaluate]
    by_cases hl : l.Overflows env
    · rw [ihl.1 hl]
      exact ⟨fun _ ↦ rfl, fun h ↦ absurd (Or.inl hl) h⟩
    rw [ihl.2 hl]
    by_cases hr : r.Overflows env
    · rw [ihr.1 hr]
      refine ⟨fun _ ↦ ?_, fun h ↦ absurd (Or.inr (Or.inl hr)) h⟩
      cases l.value env <;> rfl
    rw [ihr.2 hr]
    simp only [Overflows, hl, hr, false_or]
    show _ ∧ (_ → _ = (l.value env).bind fun a ↦ (r.value env).bind fun b ↦ op.wrapping a b)
    rcases l.value env with - | a
    · exact ⟨fun _ ↦ rfl, fun _ ↦ rfl⟩
    rcases r.value env with - | b
    · exact ⟨fun _ ↦ rfl, fun _ ↦ rfl⟩
    simp only [Option.bind_some, Op.checked_eq, Option.some.injEq]
    exact ⟨fun h ↦ if_pos h, fun h ↦ if_neg h⟩

/-! ### The parser reads what can be derived -/

/-- What `f` reads is an expression of this kind, and it gives its value. -/
def Produces (env : Env) (p : Prec) (d : ℕ) (f : List Token → Outcome) : Prop :=
  ∀ tokens v rest, f tokens = .ok v rest →
    ∃ pre e, tokens = pre ++ rest ∧ Derives p d pre e ∧ e.evaluate Op.checked env = some v

theorem binaryLoop_produces {p : Prec} {operand : List Token → Outcome}
    (h : Produces env p.tighter d operand) (fuel : ℕ) :
    ∀ left tokens v rest, binaryLoop p.level operand fuel left tokens = .ok v rest →
      ∀ {pre e}, Derives p d pre e → e.evaluate Op.checked env = some left →
        ∃ pre' e', pre ++ tokens = pre' ++ rest ∧ Derives p d pre' e' ∧
          e'.evaluate Op.checked env = some v := by
  induction fuel with
  | zero =>
    intro left tokens v rest hok pre e hpre he
    simp only [binaryLoop, Outcome.ok.injEq] at hok
    exact ⟨pre, e, by rw [hok.2], hpre, hok.1 ▸ he⟩
  | succ fuel ih =>
    intro left tokens v rest hok pre e hpre he
    rcases tokens with - | ⟨⟨v'⟩ | ⟨n⟩ | ⟨op⟩, tokens⟩
    · simp only [binaryLoop, Outcome.ok.injEq] at hok
      exact ⟨pre, e, by rw [hok.2], hpre, hok.1 ▸ he⟩
    · simp only [binaryLoop, Outcome.ok.injEq] at hok
      exact ⟨pre, e, by rw [hok.2], hpre, hok.1 ▸ he⟩
    · simp only [binaryLoop, Outcome.ok.injEq] at hok
      exact ⟨pre, e, by rw [hok.2], hpre, hok.1 ▸ he⟩
    · rw [binaryLoop] at hok
      rcases hlevel : p.level op with - | apply
      -- an operator of another level ends the loop
      · rw [hlevel] at hok
        simp only [Outcome.ok.injEq] at hok
        exact ⟨pre, e, by rw [hok.2], hpre, hok.1 ▸ he⟩
      obtain ⟨hprec, rfl⟩ := Prec.level_eq_some hlevel
      rw [hlevel] at hok
      dsimp only at hok
      rcases hop : operand tokens with - | - | ⟨right, tokens'⟩
      · simp [hop, Outcome.bind] at hok
      · simp [hop, Outcome.bind] at hok
      · simp only [hop, Outcome.bind] at hok
        obtain ⟨mid, r, rfl, hmid, hr⟩ := h tokens right tokens' hop
        rcases happly : op.checked left right with - | result
        · simp [happly] at hok
        · rw [happly] at hok
          have hvalue : (Expr.binary e op r).evaluate Op.checked env = some result := by
            rw [Expr.evaluate, he, hr]
            exact happly
          obtain ⟨pre', e', hpre', hderives, he'⟩ :=
            ih result tokens' v rest hok (hpre.binary hprec hmid) hvalue
          exact ⟨pre', e', by rw [← hpre']; simp, hderives, he'⟩

theorem binary_produces {p : Prec} {operand : List Token → Outcome} (hp : p ≠ .primary)
    (h : Produces env p.tighter d operand) : Produces env p d (binary p.level operand) := by
  intro tokens v rest hok
  rw [binary] at hok
  rcases hop : operand tokens with - | - | ⟨left, tokens'⟩
  · simp [hop, Outcome.bind] at hok
  · simp [hop, Outcome.bind] at hok
  · simp only [hop, Outcome.bind] at hok
    obtain ⟨pre, e, rfl, hpre, he⟩ := h tokens left tokens' hop
    exact binaryLoop_produces h _ left tokens' v rest hok (hpre.operand hp) he

/-- **The parser reads what can be derived.** -/
theorem produces (env : Env) (frames : ℕ) : ∀ depth d, depth + d = maxDepth → ∀ p : Prec,
    Produces env p d (p.parse env frames depth) := by
  induction frames with
  | zero =>
    intro depth d _ p tokens v rest hok
    cases p <;> simp [Prec.parse, comparison, additive, multiplicative, unary, primary] at hok
  | succ frames ih =>
    intro depth d hd p
    have ih' := ih depth d hd
    cases p with
    | comparison =>
      intro tokens v rest hok
      rw [Prec.parse, comparison] at hok
      exact binary_produces (p := .comparison) (by rintro ⟨⟩) (ih' .additive) tokens v rest hok
    | additive =>
      intro tokens v rest hok
      rw [Prec.parse, additive] at hok
      exact binary_produces (p := .additive) (by rintro ⟨⟩) (ih' .multiplicative) tokens v rest hok
    | multiplicative =>
      intro tokens v rest hok
      rw [Prec.parse, multiplicative] at hok
      exact binary_produces (p := .multiplicative) (by rintro ⟨⟩) (ih' .unary) tokens v rest hok
    | unary =>
      intro tokens v rest hok
      rw [Prec.parse] at hok
      rcases sign_cases tokens with ⟨tokens, rfl⟩ | ⟨tokens, rfl⟩ | hplain
      · rw [unary] at hok
        rcases hrest : unary env frames depth tokens with - | - | ⟨operand, rest'⟩
        · simp [hrest, Outcome.bind] at hok
        · simp [hrest, Outcome.bind] at hok
        · simp only [hrest, Outcome.bind, Outcome.ok.injEq] at hok
          obtain ⟨hv, rfl⟩ := hok
          obtain ⟨pre, e, rfl, hpre, he⟩ := ih' .unary tokens operand rest' hrest
          refine ⟨_, _, rfl, hpre.minus, ?_⟩
          rw [Expr.evaluate, he, Option.map_some, Int64.ofInt_neg, Int64.ofInt_toInt, hv]
      · rw [unary] at hok
        obtain ⟨pre, e, rfl, hpre, he⟩ := ih' .unary tokens v rest hok
        exact ⟨_, _, rfl, hpre.plus, he⟩
      · rw [unary_of_plain hplain] at hok
        obtain ⟨pre, e, rfl, hpre, he⟩ := ih' .primary tokens v rest hok
        exact ⟨pre, e, rfl, .operand (by rintro ⟨⟩) hpre, he⟩
    | primary =>
      intro tokens v rest hok
      rw [Prec.parse] at hok
      rcases tokens with - | ⟨⟨v'⟩ | ⟨n⟩ | ⟨op⟩, tokens⟩
      · rw [primary] at hok
        cases hok
      · rw [primary] at hok
        cases hok
        exact ⟨[_], _, rfl, .num, rfl⟩
      · rw [primary] at hok
        cases hok
        exact ⟨[_], _, rfl, .name, rfl⟩
      · by_cases hop : op = .lparen
        · subst hop
          rw [primary] at hok
          split at hok
          · cases hok
          · rename_i hdepth
            obtain ⟨d, rfl⟩ := Nat.exists_eq_add_of_le' (show 1 ≤ d by omega)
            rcases hin : comparison env frames (depth + 1) tokens with - | - | ⟨inner, rest'⟩
            · simp [hin, Outcome.bind] at hok
            · simp [hin, Outcome.bind] at hok
            · simp only [hin, Outcome.bind] at hok
              obtain ⟨pre, e, rfl, hpre, he⟩ :=
                ih (depth + 1) d (by omega) .comparison tokens inner rest' hin
              split at hok
              · cases hok
                exact ⟨_, e, by simp, hpre.paren, he⟩
              · cases hok
        · rw [primary_of_op hop] at hok
          cases hok

/-! ### The parser finds every derivation -/

/-- A value, or none, and the tokens behind the expression. -/
def Outcome.given : Option Int64 → List Token → Outcome
  | none, _ => .refused
  | some v, rest => .ok v rest

/-- What the parser does behind the first operand. -/
def Prec.goOn (env : Env) (frames depth : ℕ) (p : Prec) (v : Int64) (rest : List Token) : Outcome :=
  binaryLoop p.level (p.tighter.parse env frames depth) rest.length v rest

/-- An infix operator in front of the tokens makes a kind of expression of this rank at most. -/
def Follows (k : ℕ) (rest : List Token) : Prop :=
  ∀ op, rest.head? = some (.op op) → ∀ q, op.prec = some q → q.rank ≤ k

theorem Prec.rank_lt_tighter {p : Prec} (h : p ≠ .primary) : p.rank < p.tighter.rank := by
  cases p <;> first | decide | exact absurd rfl h

theorem Prec.rank_le_two {p : Prec} (h : op.prec = some p) : p.rank ≤ 2 := by
  cases op <;> cases h <;> decide

theorem Prec.parse_zero (env : Env) (depth : ℕ) (p : Prec) (tokens : List Token) :
    p.parse env 0 depth tokens = .overflow := by
  cases p with
  | comparison => rw [parse, Arith.comparison]
  | additive => rw [parse, Arith.additive]
  | multiplicative => rw [parse, Arith.multiplicative]
  | unary => rw [parse, Arith.unary]
  | primary => rw [parse, Arith.primary]

theorem Prec.parse_succ {p : Prec} (h : p.rank ≤ 2) (tokens : List Token) :
    p.parse env (frames + 1) depth tokens =
      (p.tighter.parse env frames depth tokens).bind (p.goOn env frames depth) := by
  cases p with
  | comparison => rw [parse, Arith.comparison]; rfl
  | additive => rw [parse, Arith.additive]; rfl
  | multiplicative => rw [parse, Arith.multiplicative]; rfl
  | unary => exact absurd h (by decide)
  | primary => exact absurd h (by decide)

theorem Prec.parses (env : Env) (frames depth : ℕ) (p : Prec) :
    Parses frames (p.parse env frames depth) := by
  obtain ⟨hcmp, hadd, hmul, hun, hprim⟩ := Arith.parses env frames depth
  cases p <;> assumption

theorem binaryLoop_of_le {level : Level} {operand : List Token → Outcome}
    (h : Parses d operand) (hfuel : rest.length ≤ fuel) :
    binaryLoop level operand fuel v rest = binaryLoop level operand rest.length v rest := by
  induction fuel, hfuel using Nat.le_induction with
  | base => rfl
  | succ fuel hle ih => rw [binaryLoop_fuel_irrelevant h fuel v rest hle, ih]

/-- Nothing follows that the loop goes on with. -/
theorem goOn_of_follows {p : Prec} {k : ℕ} (h : Follows k rest) (hk : k < p.rank) :
    p.goOn env frames depth v rest = .ok v rest := by
  rw [Prec.goOn]
  rcases rest with - | ⟨⟨v'⟩ | ⟨n⟩ | ⟨op⟩, rest⟩
  · rfl
  · rfl
  · rfl
  · rw [List.length_cons, binaryLoop, Prec.level_eq_none]
    intro hprec
    exact absurd (h op rfl p hprec) (Nat.not_le.2 hk)

theorem follows_two (rest : List Token) : Follows 2 rest :=
  fun _ _ _ hq ↦ Prec.rank_le_two hq

theorem bind_goOn_of_follows {p : Prec} {k : ℕ} (h : Follows k rest) (hk : k < p.rank)
    (o : Option Int64) : (Outcome.given o rest).bind (p.goOn env frames depth) = .given o rest := by
  rcases o with - | v
  · rfl
  · exact goOn_of_follows h hk

theorem head?_of_derives_primary {e : Expr} (h : Derives .primary d ts e) :
    ∃ t ts', ts = t :: ts' ∧ isSign t = false := by
  cases h with
  | num => exact ⟨_, _, rfl, rfl⟩
  | name => exact ⟨_, _, rfl, rfl⟩
  | paren => exact ⟨_, _, rfl, rfl⟩
  | operand hp => exact absurd rfl hp
  | @binary _ _ op _ _ _ _ hop => cases op <;> cases hop

/-- **The parser finds every derivation.** With frames enough, it reads the expression, computes
its value and goes on behind it. -/
theorem completes {p : Prec} {e : Expr} (h : Derives p d ts e) :
    ∀ frames depth rest, depth + d = maxDepth → Follows p.rank rest →
      p.parse env (frames + 1) depth (ts ++ rest) ≠ .overflow →
        p.parse env (frames + 1) depth (ts ++ rest) =
          (Outcome.given (e.evaluate Op.checked env) rest).bind (p.goOn env frames depth) := by
  -- a call that does not overflow has a frame
  have hframe : ∀ {frames depth p tokens}, Prec.parse env frames depth p tokens ≠ .overflow →
      ∃ n, frames = n + 1 := fun {frames depth p tokens} h ↦ by
    rcases frames with - | n
    · exact absurd (Prec.parse_zero env depth p tokens) h
    · exact ⟨n, rfl⟩
  have hbind : ∀ {o : Outcome} {k}, o.bind k ≠ .overflow → o ≠ .overflow := fun h ho ↦
    h (by rw [ho]; rfl)
  induction h with
  | num =>
    intro frames depth rest _ _ _
    rw [bind_goOn_of_follows (follows_two rest) (by decide), Prec.parse, List.singleton_append,
      primary]
    rfl
  | name =>
    intro frames depth rest _ _ _
    rw [bind_goOn_of_follows (follows_two rest) (by decide), Prec.parse, List.singleton_append,
      primary]
    rfl
  | @paren d ts e _ ih =>
    intro frames depth rest hd _ hne
    rw [bind_goOn_of_follows (follows_two rest) (by decide)]
    rw [Prec.parse, List.cons_append, primary, if_neg (by omega), List.append_assoc,
      List.singleton_append] at hne ⊢
    obtain ⟨n, rfl⟩ := hframe (p := .comparison) (hbind hne)
    -- the closing parenthesis ends the comparison
    have hfollows : Follows 0 (.op .rparen :: rest) := fun op hop q hq ↦ by
      obtain rfl : Op.rparen = op := by simpa using hop
      cases hq
    have hin := ih n (depth + 1) (.op .rparen :: rest) (by omega) hfollows (hbind hne)
    rw [Prec.parse] at hin
    rw [hin]
    rcases e.evaluate Op.checked env with - | v
    · rfl
    · rfl
  | @minus d ts e _ ih =>
    intro frames depth rest hd hfollows hne
    rw [bind_goOn_of_follows (follows_two rest) (by decide)]
    rw [Prec.parse, List.cons_append, unary] at hne ⊢
    obtain ⟨n, rfl⟩ := hframe (p := .unary) (hbind hne)
    have hin := ih n depth rest hd hfollows (hbind hne)
    rw [bind_goOn_of_follows (follows_two rest) (by decide), Prec.parse] at hin
    rw [hin, Expr.evaluate]
    rcases e.evaluate Op.checked env with - | v
    · rfl
    · rw [Option.map_some, Int64.ofInt_neg, Int64.ofInt_toInt]
      rfl
  | @plus d ts e _ ih =>
    intro frames depth rest hd hfollows hne
    rw [bind_goOn_of_follows (follows_two rest) (by decide)]
    rw [Prec.parse, List.cons_append, unary] at hne ⊢
    obtain ⟨n, rfl⟩ := hframe (p := .unary) hne
    have hin := ih n depth rest hd hfollows hne
    rw [bind_goOn_of_follows (follows_two rest) (by decide), Prec.parse] at hin
    exact hin
  | @operand p d ts e hp hder ih =>
    intro frames depth rest hd hfollows hne
    have hlt := Prec.rank_lt_tighter hp
    have hmono : Follows p.tighter.rank rest :=
      fun op hop q hq ↦ (hfollows op hop q hq).trans hlt.le
    rcases Nat.lt_or_ge 2 p.rank with hunary | hbinary
    · -- no sign is in front of a primary expression
      obtain rfl : p = .unary := by
        cases p <;> first | rfl | exact absurd rfl hp | exact absurd hunary (by decide)
      obtain ⟨t, ts', rfl, ht⟩ := head?_of_derives_primary hder
      have hplain : ∀ t' ∈ (t :: ts' ++ rest).head?, isSign t' = false := fun t' ht' ↦ by
        obtain rfl : t = t' := by simpa using ht'
        exact ht
      rw [Prec.parse, unary_of_plain hplain] at hne ⊢
      obtain ⟨n, rfl⟩ := hframe (p := .primary) hne
      have hin := ih n depth rest hd hmono hne
      rw [bind_goOn_of_follows (follows_two rest) (by decide)] at hin
      change primary env (n + 1) depth _ = _ at hin
      rw [hin, bind_goOn_of_follows (follows_two rest) (by decide)]
    · rw [Prec.parse_succ hbinary] at hne ⊢
      obtain ⟨n, rfl⟩ := hframe (hbind hne)
      rw [ih n depth rest hd hmono (hbind hne), bind_goOn_of_follows hfollows hlt]
  | @binary p d op ts ts' l r hop hl hr ihl ihr =>
    intro frames depth rest hd hfollows hne
    have hbinary := Prec.rank_le_two hop
    have hlt : p.rank < p.tighter.rank :=
      Prec.rank_lt_tighter (by rintro rfl; cases op <;> cases hop)
    have hmono : Follows p.tighter.rank rest :=
      fun op hop q hq ↦ (hfollows op hop q hq).trans hlt.le
    have hfollows' : Follows p.rank (.op op :: (ts' ++ rest)) := fun op' hop' q hq ↦ by
      obtain rfl : op = op' := by simpa using hop'
      obtain rfl := Option.some.inj (hop.symm.trans hq)
      exact le_rfl
    rw [List.append_assoc, List.cons_append] at hne ⊢
    have hleft := ihl frames depth (.op op :: (ts' ++ rest)) hd hfollows' hne
    rw [hleft] at hne ⊢
    rw [Expr.evaluate]
    generalize l.evaluate Op.checked env = o at hne ⊢
    rcases o with - | a
    · rfl
    -- one more round of the loop
    have hround : p.goOn env frames depth a (.op op :: (ts' ++ rest)) =
        (p.tighter.parse env frames depth (ts' ++ rest)).bind fun b rest' ↦
          (op.checked a b).elim .refused fun v ↦
            binaryLoop p.level (p.tighter.parse env frames depth) (ts' ++ rest).length v rest' := by
      rewrite [Prec.goOn, List.length_cons, binaryLoop, Prec.exists_level hop]
      dsimp only
      refine congrArg _ (funext fun b ↦ funext fun rest' ↦ ?_)
      cases op.checked a b <;> rfl
    change p.goOn env frames depth a (.op op :: (ts' ++ rest)) ≠ .overflow at hne
    change p.goOn env frames depth a (.op op :: (ts' ++ rest)) = _
    rw [hround] at hne ⊢
    obtain ⟨n, rfl⟩ := hframe (hbind hne)
    rw [ihr n depth rest hd hmono (hbind hne), bind_goOn_of_follows hfollows hlt]
    rcases r.evaluate Op.checked env with - | b
    · rfl
    dsimp only [Outcome.given, Outcome.bind, Option.bind_some]
    rcases op.checked a b with - | v
    · rfl
    · exact binaryLoop_of_le (Prec.parses env (n + 1) depth p.tighter)
        (by rw [List.length_append]; omega)

/-! ### The evaluator -/

/-- **The evaluator finds the sentences.** -/
theorem eval_of_sentence {e : Expr} (h : Sentence classes expr e) :
    eval classes env expr = e.evaluate Op.checked env := by
  obtain ⟨ts, hlexes, hderives⟩ := h
  have hfits := fitsIn_eval classes env expr
  rw [eval]
  rw [FitsIn] at hfits
  rw [show 165 + 33 * expr.length = 164 + 33 * expr.length + 1 by omega] at hfits ⊢
  generalize 164 + 33 * expr.length = frames at *
  rw [evalWith, tokenize_eq_some_iff.2 hlexes] at hfits ⊢
  dsimp only at hfits ⊢
  have hne : comparison env (frames + 1) 0 ts ≠ .overflow := fun ho ↦ hfits (by rw [ho]; rfl)
  have hend : Follows 0 [] := fun op hop ↦ by cases hop
  have hparse := completes hderives frames 0 [] rfl hend (by rw [List.append_nil]; exact hne)
  rw [List.append_nil] at hparse
  change comparison env (frames + 1) 0 ts = _ at hparse
  rw [hparse]
  rcases e.evaluate Op.checked env with - | v
  · rfl
  · rfl

/-- **The evaluator accepts sentences only.** -/
theorem sentence_of_eval (h : eval classes env expr = some v) :
    ∃ e, Sentence classes expr e ∧ e.evaluate Op.checked env = some v := by
  rw [eval] at h
  generalize 165 + 33 * expr.length = frames at h
  rw [evalWith] at h
  rcases htok : tokenize classes expr with - | tokens
  · simp [htok] at h
  rw [htok] at h
  dsimp only at h
  rcases hcmp : comparison env frames 0 tokens with - | - | ⟨v', rest⟩
  · simp [hcmp, Outcome.bind] at h
  · simp [hcmp, Outcome.bind] at h
  simp only [hcmp, Outcome.bind] at h
  by_cases hnil : rest = []
  · rw [if_pos hnil] at h
    obtain rfl := Option.some.inj h
    obtain ⟨pre, e, rfl, hderives, he⟩ :=
      produces env frames 0 maxDepth rfl .comparison tokens v' rest hcmp
    rw [hnil, List.append_nil] at htok
    exact ⟨e, ⟨pre, tokenize_eq_some_iff.1 htok, hderives⟩, he⟩
  · rw [if_neg hnil] at h
    cases h

/-- **When the evaluator implements its grammar.** It gives the values of the sentences and nothing
else if and only if the text is no sentence that has a value and divides `i64::MIN` by `-1`. -/
theorem eval_implements_iff (classes : CharClasses) (env : Env) (expr : Str) :
    (∀ v, eval classes env expr = some v ↔
        ∃ e, Sentence classes expr e ∧ e.value env = some v) ↔
      ¬ ∃ e, Sentence classes expr e ∧ (e.value env).isSome ∧ e.Overflows env := by
  constructor
  · rintro h ⟨e, hsentence, hvalue, hoverflows⟩
    obtain ⟨v, hv⟩ := Option.isSome_iff_exists.1 hvalue
    have heval := (h v).2 ⟨e, hsentence, hv⟩
    rw [eval_of_sentence hsentence, (e.evaluate_checked env).1 hoverflows] at heval
    cases heval
  · intro h v
    constructor
    · intro heval
      obtain ⟨e, hsentence, he⟩ := sentence_of_eval heval
      have hfits : ¬ e.Overflows env := fun hoverflows ↦ by
        rw [(e.evaluate_checked env).1 hoverflows] at he
        cases he
      exact ⟨e, hsentence, (e.evaluate_checked env).2 hfits ▸ he⟩
    · rintro ⟨e, hsentence, he⟩
      have hfits : ¬ e.Overflows env := fun hoverflows ↦
        h ⟨e, hsentence, by rw [he]; rfl, hoverflows⟩
      rw [eval_of_sentence hsentence, (e.evaluate_checked env).2 hfits, he]

/-- The quotient of `i64::MIN` by `-1`. -/
def leastQuotient : Str := "(-9223372036854775807-1)/-1".toList

/-- A quotient that wraps is refused. -/
theorem eval_refuses_leastQuotient : ¬ ∀ v, eval .ascii ∅ leastQuotient = some v ↔
    ∃ e, Sentence .ascii leastQuotient e ∧ e.value ∅ = some v := by
  intro h
  have hlexes : Lexes .ascii leastQuotient [.op .lparen, .op .sub, .num 9223372036854775807,
      .op .sub, .num 1, .op .rparen, .op .div, .op .sub, .num 1] :=
    tokenize_eq_some_iff.1 (by decide +kernel)
  have hcmp : ∀ {d ts e}, Derives .additive d ts e → Derives .comparison d ts e :=
    .operand (p := .comparison) nofun
  have hadd : ∀ {d ts e}, Derives .unary d ts e → Derives .additive d ts e := fun h ↦
    .operand (p := .additive) nofun (.operand (p := .multiplicative) nofun h)
  have hnum : ∀ {d v}, Derives .unary d [.num v] (.num v) := .operand (p := .unary) nofun .num
  have hleast : Derives .comparison 31
      ([.op .sub, .num 9223372036854775807] ++ .op .sub :: [.num 1])
      (.binary (.minus (.num 9223372036854775807)) .sub (.num 1)) :=
    hcmp (.binary rfl (hadd (.minus hnum)) (.operand (p := .multiplicative) nofun hnum))
  have hquotient : Derives .comparison 32
      ((.op .lparen :: (([.op .sub, .num 9223372036854775807] ++ .op .sub :: [.num 1]) ++
        [.op .rparen])) ++ .op .div :: [.op .sub, .num 1])
      (.binary (.binary (.minus (.num 9223372036854775807)) .sub (.num 1)) .div
        (.minus (.num 1))) :=
    hcmp (.operand (p := .additive) nofun (.binary rfl (.operand (p := .multiplicative) nofun
      (.operand (p := .unary) nofun hleast.paren)) (.minus hnum)))
  have heval := (h Int64.minValue).2 ⟨_, ⟨_, hlexes, hquotient⟩, by decide +kernel⟩
  revert heval
  decide +kernel

end Arith

end Mimic
