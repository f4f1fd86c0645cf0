import Mimic.Shell.ArithDepth

/-!
# The words of arithmetic expressions

What `tokenize` reads, as a relation between a text and its tokens (`Lexes`): white space between
them, numerals in decimal or after `0x`, names, and the operators, each as long as it can be.
-/

namespace Mimic

namespace Arith

variable {classes : CharClasses} {radix fuel n : ℕ} {c : Char} {cs text rest : List Char}
  {ts tokens : List Token} {value : Int64}

/-! ### Numerals -/

/-- The text is a numeral of the number `n`. -/
inductive Numeral (radix : ℕ) : Str → ℕ → Prop
  | digit {c : Char} {d : ℕ} : digitValue radix c = some d → Numeral radix [c] d
  | snoc {text : Str} {n d : ℕ} {c : Char} :
    Numeral radix text n → digitValue radix c = some d → Numeral radix (text ++ [c]) (n * radix + d)

/-- The text is a literal, in decimal or after `0x`, of a number that fits into 64 bits. -/
def IsLiteral (text : Str) (value : Int64) : Prop :=
  ∃ n < 2 ^ 63, value = Int64.ofNat n ∧
    (Numeral 10 text n ∨ ∃ x hex, (x = 'x' ∨ x = 'X') ∧ text = '0' :: x :: hex ∧ Numeral 16 hex n)

theorem digitsValue_append (radix : ℕ) (text : Str) (c : Char) :
    digitsValue radix (text ++ [c]) =
      (digitsValue radix text).bind fun n ↦ (digitValue radix c).map (n * radix + ·) := by
  rw [digitsValue, List.foldlM_append]
  rcases hn : digitsValue radix text with - | n
  · rw [digitsValue] at hn
    rw [hn]
    rfl
  · rw [digitsValue] at hn
    rw [hn]
    rcases hd : digitValue radix c with - | d <;> simp [hd]

theorem numeral_iff : Numeral radix text n ↔ text ≠ [] ∧ digitsValue radix text = some n := by
  constructor
  · intro h
    induction h with
    | @digit c d hd =>
      refine ⟨List.cons_ne_nil _ _, ?_⟩
      have hone := digitsValue_append radix [] c
      rw [hd] at hone
      simpa [digitsValue] using hone
    | @snoc text n d c _ hd ih =>
      refine ⟨by simp, ?_⟩
      rw [digitsValue_append, ih.2, hd]
      rfl
  · rintro ⟨hne, h⟩
    induction text using List.reverseRecOn generalizing n with
    | nil => exact absurd rfl hne
    | append_singleton text c ih =>
      rw [digitsValue_append] at h
      obtain ⟨m, hm, h⟩ := Option.bind_eq_some_iff.1 h
      obtain ⟨d, hd, rfl⟩ := Option.map_eq_some_iff.1 h
      rcases eq_or_ne text [] with rfl | hne'
      · obtain rfl : 0 = m := Option.some.inj hm
        simpa using Numeral.digit hd
      · exact (ih hne' hm).snoc hd

/-- **A number is read as it is printed**, in a radix up to ten. -/
theorem numeral_toDigits (hone : 1 < radix) (hten : radix ≤ 10) (n : ℕ) :
    Numeral radix (Nat.toDigits radix n) n := by
  have hdigit (d : ℕ) (hd : d < radix) : digitValue radix d.digitChar = some d := by
    interval_cases radix <;> interval_cases d <;> decide
  induction n using Nat.strong_induction_on with
  | _ n ih =>
    rcases Nat.lt_or_ge n radix with hlt | hge
    · rw [Nat.toDigits_of_lt_base hlt]
      exact .digit (hdigit n hlt)
    · have hsnoc := (ih (n / radix) (Nat.div_lt_self (by omega) hone)).snoc
        (hdigit (n % radix) (Nat.mod_lt n (by omega)))
      rw [Nat.div_add_mod'] at hsnoc
      rwa [Nat.toDigits_of_base_le hone hge]

/-- Zeros in front change nothing. -/
theorem Numeral.zeros (h : Numeral radix text n) (hpos : 0 < radix) (k : ℕ) :
    Numeral radix (List.replicate k '0' ++ text) n := by
  have hzero : digitValue radix '0' = some 0 := by
    rw [digitValue]
    exact if_pos hpos
  induction k with
  | zero => exact h
  | succ k ih =>
    rw [numeral_iff] at ih ⊢
    refine ⟨by simp [List.replicate_succ], ?_⟩
    rw [List.replicate_succ, List.cons_append, digitsValue, List.foldlM_cons, hzero]
    simpa [digitsValue] using ih.2

theorem digitsValue_cons_eq_none (h : digitValue radix c = none) :
    digitsValue radix (c :: text) = none := by
  rw [digitsValue, List.foldlM_cons, h]
  rfl

/-- A text without a sign is parsed to the number it is the numeral of. -/
theorem parseI64_eq_some_iff (h : ∀ c ∈ text.head?, c ≠ '-' ∧ c ≠ '+') :
    parseI64 radix text = some value ↔
      ∃ n < 2 ^ 63, value = Int64.ofNat n ∧ Numeral radix text n := by
  have hneg : ¬ text.head? = some '-' := fun heq ↦ (h '-' heq).1 rfl
  have hpos : ¬ text.head? = some '+' := fun heq ↦ (h '+' heq).2 rfl
  simp only [parseI64, hneg, hpos, or_self, if_false, numeral_iff]
  rcases eq_or_ne text [] with rfl | hne
  · simp
  rw [if_neg hne]
  rcases digitsValue radix text with - | n
  · simp
  dsimp only
  constructor
  · intro hval
    split at hval
    · rename_i hrange
      exact ⟨n, by exact_mod_cast hrange.2, (Option.some.inj hval).symm, hne, rfl⟩
    · cases hval
  · rintro ⟨m, hm, rfl, -, heq⟩
    obtain rfl := Option.some.inj heq
    rw [if_pos ⟨by omega, by exact_mod_cast hm⟩]
    rfl

theorem not_sign_of_isAlphanum (h : c.isAlphanum = true) : c ≠ '-' ∧ c ≠ '+' := by
  constructor <;> rintro rfl <;> revert h <;> decide

/-- **`parseLiteral` reads literals.** -/
theorem parseLiteral_eq_some_iff (h : ∀ c ∈ text, c.isAlphanum = true) :
    parseLiteral text = some value ↔ IsLiteral text value := by
  have hhead : ∀ {t : List Char}, t <:+ text → ∀ c ∈ t.head?, c ≠ '-' ∧ c ≠ '+' :=
    fun ht c hc ↦ not_sign_of_isAlphanum (h c (ht.subset (List.mem_of_mem_head? hc)))
  have hzero : digitValue 10 '0' = some 0 := by decide
  -- what is behind `0x` is no part of a decimal numeral
  have hhex : ∀ {x hex}, text = '0' :: x :: hex → (x = 'x' ∨ x = 'X') →
      (IsLiteral text value ↔ ∃ n < 2 ^ 63, value = Int64.ofNat n ∧ Numeral 16 hex n) := by
    rintro x hex rfl hx
    have hx' : digitValue 10 x = none := by rcases hx with rfl | rfl <;> decide
    have hdec : ∀ n, ¬ Numeral 10 ('0' :: x :: hex) n := fun n hn ↦ by
      have hval := (numeral_iff.1 hn).2
      rw [digitsValue, List.foldlM_cons, hzero] at hval
      simp [hx'] at hval
    constructor
    · rintro ⟨n, hn, rfl, hnum | ⟨x', hex', -, heq, hnum⟩⟩
      · exact absurd hnum (hdec n)
      · cases heq
        exact ⟨n, hn, rfl, hnum⟩
    · rintro ⟨n, hn, rfl, hnum⟩
      exact ⟨n, hn, rfl, Or.inr ⟨x, hex, hx, rfl, hnum⟩⟩
  rw [parseLiteral.eq_def]
  split
  · rename_i hex
    rw [hhex rfl (Or.inl rfl), parseI64_eq_some_iff (hhead (List.suffix_append ['0', 'x'] hex))]
  · rename_i hex
    rw [hhex rfl (Or.inr rfl), parseI64_eq_some_iff (hhead (List.suffix_append ['0', 'X'] hex))]
  · rename_i hx hX
    rw [parseI64_eq_some_iff (hhead List.suffix_rfl)]
    refine exists_congr fun n ↦ and_congr_right fun _ ↦ and_congr_right fun _ ↦
      ⟨Or.inl, fun hnum ↦ hnum.resolve_right ?_⟩
    rintro ⟨x, hex, rfl | rfl, rfl, -⟩
    · exact hx hex rfl
    · exact hX hex rfl

/-! ### Words -/

/-- What an operator looks like. -/
def Op.spelling : Op → Str
  | .eq => ['=', '=']
  | .ne => ['!', '=']
  | .le => ['<', '=']
  | .ge => ['>', '=']
  | .lt => ['<']
  | .gt => ['>']
  | .add => ['+']
  | .sub => ['-']
  | .mul => ['*']
  | .div => ['/']
  | .rem => ['%']
  | .lparen => ['(']
  | .rparen => [')']

/-- What a name starts with. -/
def isNameStart (classes : CharClasses) (c : Char) : Bool :=
  !Text.isWhitespace c && (classes.isAlphabetic c || c == '_')

/-- What a name goes on with. -/
def isNameChar (classes : CharClasses) (c : Char) : Bool := classes.isAlphanumeric c || c == '_'

/-- The text consists of white space and these tokens, each as long as it can be. -/
inductive Lexes (classes : CharClasses) : Str → List Token → Prop
  | nil : Lexes classes [] []
  | space {c : Char} {rest : Str} {ts : List Token} :
    Text.isWhitespace c = true → Lexes classes rest ts → Lexes classes (c :: rest) ts
  | literal {text rest : Str} {value : Int64} {ts : List Token} :
    IsLiteral text value → (∀ c ∈ text, c.isAlphanum = true) →
      (∀ c ∈ rest.head?, c.isAlphanum = false) → Lexes classes rest ts →
        Lexes classes (text ++ rest) (.num value :: ts)
  | name {c : Char} {text rest : Str} {ts : List Token} :
    isNameStart classes c = true → (∀ x ∈ text, isNameChar classes x = true) →
      (∀ x ∈ rest.head?, isNameChar classes x = false) → Lexes classes rest ts →
        Lexes classes (c :: text ++ rest) (.name (c :: text) :: ts)
  | operator {op : Op} {rest : Str} {ts : List Token} :
    (∀ op' : Op, op'.spelling <+: op.spelling ++ rest →
      op'.spelling.length ≤ op.spelling.length) →
        Lexes classes rest ts → Lexes classes (op.spelling ++ rest) (.op op :: ts)

theorem takeWhile_append_of_stop {p : Char → Bool} (htext : ∀ c ∈ text, p c = true)
    (hrest : ∀ c ∈ rest.head?, p c = false) :
    (text ++ rest).takeWhile p = text ∧ (text ++ rest).dropWhile p = rest := by
  rw [List.takeWhile_append_of_pos htext, List.dropWhile_append_of_pos htext]
  rcases rest with - | ⟨c, rest⟩
  · simp
  · have hc := hrest c rfl
    rw [List.takeWhile_cons_of_neg (by simp [hc]), List.dropWhile_cons_of_neg (by simp [hc])]
    simp

theorem head?_dropWhile_eq_false {p : Char → Bool} (c : Char) (h : c ∈ (cs.dropWhile p).head?) :
    p c = false := by
  have hne : cs.dropWhile p ≠ [] := fun hnil ↦ by simp [hnil] at h
  have hhead := List.head_dropWhile_not p hne
  rw [List.head?_eq_some_head hne, Option.mem_some_iff] at h
  rw [← h]
  simpa using hhead

/-- The two-character operators are those with two characters. -/
theorem twoCharOp_eq_some_iff {op : Op} :
    twoCharOp (text.take 2) = some op ↔ op.spelling <+: text ∧ op.spelling.length = 2 := by
  rcases text with - | ⟨a, - | ⟨b, text⟩⟩
  · cases op <;> simp [twoCharOp, Op.spelling]
  · cases op <;> simp [twoCharOp, Op.spelling]
  · simp only [List.take_succ_cons, List.take_zero]
    constructor
    · intro h
      rw [twoCharOp.eq_def] at h
      split at h <;> cases h <;> rename_i heq <;> cases heq <;> simp [Op.spelling]
    · rintro ⟨hpre, hlen⟩
      cases op <;> simp only [Op.spelling, List.length_cons, List.length_nil] at hlen <;>
        first
        | omega
        | (simp only [Op.spelling, List.cons_prefix_cons] at hpre
           obtain ⟨rfl, rfl, -⟩ := hpre
           rfl)

/-- The one-character operators are those with one character. -/
theorem oneCharOp_eq_some_iff {op : Op} : oneCharOp c = some op ↔ op.spelling = [c] := by
  constructor
  · intro h
    rw [oneCharOp.eq_def] at h
    split at h <;> cases h <;> rfl
  · intro h
    cases op <;> simp only [Op.spelling, List.cons.injEq, reduceCtorEq, and_false] at h <;>
      obtain ⟨rfl, -⟩ := h <;> rfl

/-! ### The tokenizer -/

/-- **What the tokenizer gives is in the text.** -/
theorem lexes_of_tokenizeLoop (classes : CharClasses) (fuel : ℕ) :
    ∀ {cs : List Char} {ts : List Token}, tokenizeLoop classes fuel cs = some ts →
      Lexes classes cs ts := by
  induction fuel with
  | zero =>
    intro cs ts h
    rcases cs with - | ⟨c, cs⟩
    · obtain rfl := Option.some.inj h
      exact .nil
    · cases h
  | succ fuel ih =>
    intro cs ts h
    rcases cs with - | ⟨c, cs⟩
    · obtain rfl := Option.some.inj h
      exact .nil
    rw [tokenizeLoop] at h
    split at h
    · rename_i hspace
      exact .space hspace (ih h)
    rename_i hspace
    split at h
    · dsimp only at h
      rcases hlit : parseLiteral ((c :: cs).takeWhile Char.isAlphanum) with - | value
      · rw [hlit] at h
        cases h
      rw [hlit] at h
      obtain ⟨ts, hts, rfl⟩ := Option.map_eq_some_iff.1 h
      have halnum : ∀ x ∈ (c :: cs).takeWhile Char.isAlphanum, x.isAlphanum = true :=
        fun x hx ↦ List.mem_takeWhile_imp hx
      have hword := Lexes.literal ((parseLiteral_eq_some_iff halnum).1 hlit) halnum
        (fun x hx ↦ head?_dropWhile_eq_false x hx) (ih hts)
      rwa [List.takeWhile_append_dropWhile] at hword
    split at h
    · rename_i hstart
      obtain ⟨ts, hts, rfl⟩ := Option.map_eq_some_iff.1 h
      have hname : isNameChar classes c = true := isNameChar_of_start hstart
      have hstart' : isNameStart classes c = true := by
        rw [isNameStart, hstart, Bool.and_true, Bool.not_eq_true', Bool.eq_false_iff]
        exact hspace
      have hrest : (c :: cs).dropWhile (isNameChar classes) = cs.dropWhile (isNameChar classes) :=
        List.dropWhile_cons_of_pos hname
      have htext : (c :: cs).takeWhile (isNameChar classes) =
          c :: cs.takeWhile (isNameChar classes) := List.takeWhile_cons_of_pos hname
      have hall : ∀ x ∈ cs.takeWhile (isNameChar classes), isNameChar classes x = true :=
        fun x hx ↦ List.mem_takeWhile_imp hx
      have hword := Lexes.name hstart' hall
        (fun x hx ↦ head?_dropWhile_eq_false x hx) (hrest ▸ ih hts)
      rw [List.cons_append, List.takeWhile_append_dropWhile, ← htext] at hword
      exact hword
    · rcases htwo : twoCharOp ((c :: cs).take 2) with - | op
      · rw [htwo] at h
        dsimp only at h
        rcases hone : oneCharOp c with - | op
        · rw [hone] at h
          cases h
        rw [hone] at h
        obtain ⟨ts, hts, rfl⟩ := Option.map_eq_some_iff.1 h
        have hop := oneCharOp_eq_some_iff.1 hone
        have hword : op.spelling ++ cs = c :: cs := by rw [hop, List.singleton_append]
        rw [← hword]
        refine .operator (fun op' hop' ↦ ?_) (ih hts)
        by_contra hlt
        have hlen : op'.spelling.length = 2 := by
          rw [hop] at hlt
          cases op' <;> simp [Op.spelling] at hlt ⊢
        have := twoCharOp_eq_some_iff.2 ⟨hword ▸ hop', hlen⟩
        rw [htwo] at this
        cases this
      · rw [htwo] at h
        obtain ⟨ts, hts, rfl⟩ := Option.map_eq_some_iff.1 h
        obtain ⟨⟨rest, hrest⟩, hlen⟩ := twoCharOp_eq_some_iff.1 htwo
        have hdrop : cs.drop 1 = rest := by
          have := congrArg (List.drop 2) hrest
          rw [List.drop_left' hlen] at this
          exact this.symm
        rw [← hrest]
        refine .operator (fun op' _ ↦ ?_) (hdrop ▸ ih hts)
        rw [hlen]
        cases op' <;> simp [Op.spelling]

theorem toNat_of_isDigit (h : c.isDigit = true) : 48 ≤ c.toNat ∧ c.toNat ≤ 57 := by
  rw [Char.isDigit, Bool.and_eq_true, decide_eq_true_eq, decide_eq_true_eq] at h
  exact ⟨UInt32.le_iff_toNat_le.1 h.1, UInt32.le_iff_toNat_le.1 h.2⟩

/-- Nothing but operators starts like an operator. -/
theorem head_spelling (classes : CharClasses) {op : Op} (h : c ∈ op.spelling.head?) :
    Text.isWhitespace c = false ∧ c.isDigit = false ∧
      (classes.isAlphabetic c || c == '_') = false := by
  have hascii : c.toNat < 128 → c.isAlpha = false → c ≠ '_' →
      (classes.isAlphabetic c || c == '_') = false := fun hc halpha hne ↦ by
    rw [classes.isAlphabetic_ascii c hc, halpha, Bool.false_or, beq_eq_false_iff_ne]
    exact hne
  cases op <;> obtain rfl := Option.mem_some_iff.1 h <;>
    exact ⟨by decide, by decide, hascii (by decide) (by decide) (by decide)⟩

/-- **The tokenizer finds the words of the text.** -/
theorem tokenizeLoop_of_lexes (h : Lexes classes cs ts) :
    ∀ fuel, cs.length ≤ fuel → tokenizeLoop classes fuel cs = some ts := by
  induction h with
  | nil => exact fun fuel _ ↦ by rw [tokenizeLoop]
  | space hspace _ ih =>
    intro fuel hfuel
    obtain ⟨fuel, rfl⟩ := Nat.exists_eq_add_of_le' (Nat.one_le_of_lt hfuel)
    rw [tokenizeLoop, if_pos hspace]
    exact ih fuel (Nat.le_of_succ_le_succ hfuel)
  | @literal text rest value ts hlit halnum hrest hlexes ih =>
    intro fuel hfuel
    obtain ⟨c, text, rfl, hdigit⟩ : ∃ c text', text = c :: text' ∧ c.isDigit = true := by
      obtain ⟨n, -, -, hnum | ⟨x, hex, -, rfl, -⟩⟩ := hlit
      · rcases text with - | ⟨c, text⟩
        · exact absurd rfl (numeral_iff.1 hnum).1
        · refine ⟨c, text, rfl, ?_⟩
          by_contra hdigit
          have hnone : digitValue 10 c = none := by
            rw [digitValue, if_neg hdigit]
            split_ifs <;> simp_all
          rw [numeral_iff, digitsValue_cons_eq_none hnone] at hnum
          cases hnum.2
      · exact ⟨'0', x :: hex, rfl, by decide⟩
    have hspace : ¬ Text.isWhitespace c = true := by
      obtain ⟨hle, hge⟩ := toNat_of_isDigit hdigit
      simp only [Text.isWhitespace, Bool.or_eq_true, Bool.and_eq_true, decide_eq_true_eq,
        beq_iff_eq]
      omega
    rw [List.cons_append, List.length_cons] at hfuel
    obtain ⟨fuel, rfl⟩ := Nat.exists_eq_add_of_le' (Nat.one_le_of_lt hfuel)
    obtain ⟨htake, hdrop⟩ := takeWhile_append_of_stop halnum hrest
    rw [List.cons_append] at htake hdrop ⊢
    rw [tokenizeLoop, if_neg hspace, if_pos hdigit, htake, hdrop]
    dsimp only
    rw [(parseLiteral_eq_some_iff halnum).2 hlit]
    dsimp only
    rw [ih fuel (by rw [List.length_append] at hfuel; omega)]
    rfl
  | @name c text rest ts hstart htext hrest _ ih =>
    intro fuel hfuel
    rw [isNameStart, Bool.and_eq_true, Bool.not_eq_true'] at hstart
    have hdigit : ¬ c.isDigit = true := fun hdigit ↦ by
      obtain ⟨hle, hge⟩ := toNat_of_isDigit hdigit
      have halpha := hstart.2
      rw [classes.isAlphabetic_ascii c (by omega)] at halpha
      change ((decide (65 ≤ c.val ∧ c.val ≤ 90) || (97 ≤ c.val && c.val ≤ 122)) || c == '_') = true
        at halpha
      simp only [Bool.or_eq_true, Bool.and_eq_true, decide_eq_true_eq, beq_iff_eq,
        UInt32.le_iff_toNat_le] at halpha
      change c.val.toNat ≤ 57 at hge
      rcases halpha with (⟨h, -⟩ | ⟨h, -⟩) | rfl
      · change 65 ≤ c.val.toNat at h
        omega
      · change 97 ≤ c.val.toNat at h
        omega
      · revert hge
        decide
    rw [List.cons_append, List.length_cons] at hfuel
    obtain ⟨fuel, rfl⟩ := Nat.exists_eq_add_of_le' (Nat.one_le_of_lt hfuel)
    have hall : ∀ x ∈ c :: text, isNameChar classes x = true := fun x hx ↦ by
      rcases List.mem_cons.1 hx with rfl | hx
      · exact isNameChar_of_start hstart.2
      · exact htext x hx
    obtain ⟨htake, hdrop⟩ := takeWhile_append_of_stop hall hrest
    rw [List.cons_append] at htake hdrop ⊢
    rw [tokenizeLoop, if_neg (by rw [hstart.1]; exact Bool.false_ne_true), if_neg hdigit,
      if_pos hstart.2]
    show (tokenizeLoop classes fuel ((c :: (text ++ rest)).dropWhile (isNameChar classes))).map
      (.name ((c :: (text ++ rest)).takeWhile (isNameChar classes)) :: ·) = _
    rw [htake, hdrop, ih fuel (by rw [List.length_append] at hfuel; omega)]
    rfl
  | @operator op rest ts hlongest _ ih =>
    intro fuel hfuel
    obtain ⟨c, tail, hspelling⟩ : ∃ c tail, op.spelling = c :: tail := by
      cases op <;> exact ⟨_, _, rfl⟩
    obtain ⟨hspace, hdigit, hname⟩ := head_spelling classes
      (show c ∈ op.spelling.head? by rw [hspelling]; rfl)
    rw [hspelling, List.cons_append] at hfuel hlongest ⊢
    rw [List.length_cons] at hfuel
    obtain ⟨fuel, rfl⟩ := Nat.exists_eq_add_of_le' (Nat.one_le_of_lt hfuel)
    rw [tokenizeLoop, if_neg (by simp [hspace]), if_neg (by simp [hdigit]),
      if_neg (by simp [hname])]
    rw [List.length_append] at hfuel
    rcases tail with - | ⟨b, tail⟩
    · -- no longer operator starts here
      have htwo : twoCharOp ((c :: ([] ++ rest)).take 2) = none := by
        rcases htwo : twoCharOp ((c :: ([] ++ rest)).take 2) with - | op'
        · rfl
        · obtain ⟨hpre, hlen⟩ := twoCharOp_eq_some_iff.1 htwo
          have := hlongest op' hpre
          rw [hlen] at this
          simp at this
      rw [htwo, oneCharOp_eq_some_iff.2 hspelling]
      dsimp only
      rw [List.nil_append, ih fuel (by omega)]
      rfl
    · have htail : tail = [] := by
        cases op <;> simp_all [Op.spelling]
      subst htail
      have hpre : op.spelling <+: c :: ([b] ++ rest) := by
        rw [hspelling]
        exact List.prefix_append [c, b] rest
      rw [twoCharOp_eq_some_iff.2 ⟨hpre, by rw [hspelling]; rfl⟩]
      dsimp only
      rw [List.cons_append, List.nil_append, List.drop_one, List.tail_cons, ih fuel (by omega)]
      rfl

/-- **The tokenizer reads words.** -/
theorem tokenize_eq_some_iff {expr : Str} :
    tokenize classes expr = some tokens ↔ Lexes classes expr tokens :=
  ⟨fun h ↦ lexes_of_tokenizeLoop classes _ h, fun h ↦ tokenizeLoop_of_lexes h _ le_rfl⟩

end Arith

end Mimic
