import Mimic.Shell.Parser

/-!
# Substitutions, byte by byte

`substitution_at` of `shell/parser.rs` as the source has it: over the bytes of a line, with the
positions that its callers slice the line at. It finds the regions that the scan of characters in
`Shell.Parser` finds (`substitutionAt_toUtf8`).

What may stand between the parentheses of a region is a language of its own (`Nested`), and a region
ends at the first parenthesis behind a word of it. An arithmetic region is taken to end with two
parentheses. It need not, and what is in front of the last one may be a character of several bytes
(`substitution_sliceable_iff`).
-/

namespace Mimic

namespace Text

/-! ### Positions in a text -/

/-- `str::is_char_boundary`. -/
def isCharBoundary (text : Str) (i : ℕ) : Bool := byteLen (takeBytes i text) == i

theorem takeBytes_add (before text : Str) (k : ℕ) :
    takeBytes (byteLen before + k) (before ++ text) = before ++ takeBytes k text := by
  induction before with
  | nil => rw [byteLen, List.map_nil, List.sum_nil, Nat.zero_add, List.nil_append, List.nil_append]
  | cons c before ih =>
    rw [byteLen_cons, List.cons_append, takeBytes, Nat.add_assoc, if_pos (Nat.le_add_right ..),
      Nat.add_sub_cancel_left, ih, List.cons_append]

theorem takeBytes_of_lt {c : Char} {k : ℕ} (h : k < c.utf8Size) (text : Str) :
    takeBytes k (c :: text) = [] := by
  rw [takeBytes, if_neg (Nat.not_le.mpr h)]

theorem takeBytes_byteLen (before text : Str) :
    takeBytes (byteLen before) (before ++ text) = before := by
  rw [← Nat.add_zero (byteLen before), takeBytes_add]
  cases text with
  | nil => exact List.append_nil before
  | cons c text => rw [takeBytes_of_lt c.utf8Size_pos, List.append_nil]

theorem takeBytes_front (i : ℕ) (text : Str) : takeBytes i text <+: text := by
  induction text generalizing i with
  | nil => exact List.prefix_rfl
  | cons c text ih =>
    rw [takeBytes]
    split
    · exact List.prefix_cons_inj c |>.mpr (ih _)
    · exact List.nil_prefix

theorem isCharBoundary_iff {text : Str} {i : ℕ} :
    isCharBoundary text i = true ↔
      ∃ before behind, text = before ++ behind ∧ byteLen before = i := by
  rw [isCharBoundary, beq_iff_eq]
  constructor
  · intro h
    obtain ⟨behind, hbehind⟩ := takeBytes_front i text
    exact ⟨_, behind, hbehind.symm, h⟩
  · rintro ⟨before, behind, rfl, rfl⟩
    rw [takeBytes_byteLen]

theorem isCharBoundary_append (before text : Str) :
    isCharBoundary (before ++ text) (byteLen before) = true :=
  isCharBoundary_iff.mpr ⟨before, text, rfl, rfl⟩

/-- No boundary is inside a character. -/
theorem isCharBoundary_inside {c : Char} {k : ℕ} (hpos : 0 < k) (h : k < c.utf8Size)
    (before behind : Str) :
    isCharBoundary (before ++ c :: behind) (byteLen before + k) = false := by
  rw [isCharBoundary, takeBytes_add, takeBytes_of_lt h, List.append_nil, beq_eq_false_iff_ne]
  omega

/-- `&text[start..stop]`, which panics where a position is not on a character boundary. -/
def slice (text : Str) (start stop : ℕ) : Option Str :=
  if start ≤ stop ∧ isCharBoundary text start = true ∧ isCharBoundary text stop = true then
    some ((takeBytes stop text).drop (takeBytes start text).length)
  else none

theorem slice_append (before text behind : Str) :
    slice (before ++ (text ++ behind)) (byteLen before) (byteLen before + byteLen text) =
      some text := by
  rw [slice, ← byteLen_append, if_pos, takeBytes_byteLen, ← List.append_assoc, takeBytes_byteLen,
    List.drop_left]
  refine ⟨by simp, isCharBoundary_append .., ?_⟩
  rw [← List.append_assoc]
  exact isCharBoundary_append ..

/-! ### Bytes of a text -/

/-- Behind the first byte of a character there are no ASCII bytes. -/
theorem exists_utf8EncodeChar_cons (c : Char) : ∃ b bs, String.utf8EncodeChar c = b :: bs ∧
    (∀ b ∈ bs, 0x80 ≤ b.toNat) ∧ c.utf8Size = bs.length + 1 := by
  obtain ⟨b, bs, heq⟩ := List.exists_cons_of_ne_nil (String.utf8EncodeChar_ne_nil (c := c))
  have hsize : c.utf8Size = bs.length + 1 := by
    rw [← String.length_utf8EncodeChar, heq, List.length_cons]
  refine ⟨b, bs, heq, fun x hx ↦ ?_, hsize⟩
  by_cases hc : c.toNat < 0x80
  · rw [utf8EncodeChar_ascii hc, List.cons.injEq] at heq
    rw [← heq.2] at hx
    cases hx
  · exact ascii_le_of_mem_utf8EncodeChar (Nat.not_lt.mp hc)
      (heq ▸ List.mem_cons_of_mem b hx)

theorem ne_toUInt8 {b : UInt8} {c : Char} (hb : 0x80 ≤ b.toNat) (hc : c.toNat < 0x80) :
    b ≠ c.toUInt8 := by
  rintro rfl
  rw [toNat_toUInt8 hc] at hb
  exact Nat.not_lt.mpr hb hc

theorem toUInt8_inj {c c' : Char} (hc : c.toNat < 0x80) (hc' : c'.toNat < 0x80) :
    c.toUInt8 = c'.toUInt8 ↔ c = c' := by
  refine ⟨fun h ↦ Char.toNat_inj.mp ?_, fun h ↦ h ▸ rfl⟩
  rw [← toNat_toUInt8 hc, h, toNat_toUInt8 hc']

end Text

namespace Parser

/-! ### The language of the regions -/

section Language

/-- What may stand in double quotes. -/
inductive InDouble : Str → Prop
  | nil : InDouble []
  | plain {c : Char} {rest : Str} : c ≠ '\\' → c ≠ '"' → InDouble rest → InDouble (c :: rest)
  | escaped {c : Char} {rest : Str} : InDouble rest → InDouble ('\\' :: c :: rest)

/-- What may stand between the parentheses of a region. -/
inductive Nested : Str → Prop
  | nil : Nested []
  | plain {c : Char} {rest : Str} :
    c ∉ ['\\', '\'', '"', '(', ')'] → Nested rest → Nested (c :: rest)
  | escaped {c : Char} {rest : Str} : Nested rest → Nested ('\\' :: c :: rest)
  | single {quoted rest : Str} :
    '\'' ∉ quoted → Nested rest → Nested ('\'' :: (quoted ++ '\'' :: rest))
  | double {quoted rest : Str} :
    InDouble quoted → Nested rest → Nested ('"' :: (quoted ++ '"' :: rest))
  | group {inner rest : Str} :
    Nested inner → Nested rest → Nested ('(' :: (inner ++ ')' :: rest))

variable {depth : ℕ} {inSingle inDouble : Bool} {c : Char} {text inner quoted rest : Str}

theorem closingParen_cons : closingParen depth ⟨inSingle, inDouble, false⟩ (c :: text) =
    if c = '\\' ∧ !inSingle then
      (closingParen depth ⟨inSingle, inDouble, true⟩ text).map (· + 1)
    else if c = '\'' ∧ !inDouble then
      (closingParen depth ⟨!inSingle, inDouble, false⟩ text).map (· + 1)
    else if c = '"' ∧ !inSingle then
      (closingParen depth ⟨inSingle, !inDouble, false⟩ text).map (· + 1)
    else if c = '(' ∧ !inSingle ∧ !inDouble then
      (closingParen (depth + 1) ⟨inSingle, inDouble, false⟩ text).map (· + 1)
    else if c = ')' ∧ !inSingle ∧ !inDouble then
      if depth = 1 then some 0
      else (closingParen (depth - 1) ⟨inSingle, inDouble, false⟩ text).map (· + 1)
    else (closingParen depth ⟨inSingle, inDouble, false⟩ text).map (· + 1) := by
  rw [closingParen, if_neg Bool.false_ne_true, Quotes.quote?]
  split_ifs <;> simp_all [Quotes.bare]

theorem closingParen_escaped : closingParen depth ⟨inSingle, inDouble, true⟩ (c :: text) =
    (closingParen depth ⟨inSingle, inDouble, false⟩ text).map (· + 1) := by
  rw [closingParen, if_pos rfl]
  rfl

/-- Single quotes are stepped over. -/
theorem closingParen_single (h : '\'' ∉ quoted) :
    closingParen depth ⟨true, false, false⟩ (quoted ++ '\'' :: rest) =
      (closingParen depth Quotes.start rest).map (· + (quoted.length + 1)) := by
  induction quoted with
  | nil =>
    rw [List.nil_append, closingParen_cons]
    simp [Quotes.start]
  | cons c quoted ih =>
    obtain ⟨hc, hquoted⟩ := List.ne_and_not_mem_of_not_mem_cons h
    rw [List.cons_append, closingParen_cons]
    simp [ih hquoted, Ne.symm hc, Option.map_map, Function.comp_def, Nat.add_assoc]

/-- Double quotes are stepped over. -/
theorem closingParen_double (h : InDouble quoted) :
    closingParen depth ⟨false, true, false⟩ (quoted ++ '"' :: rest) =
      (closingParen depth Quotes.start rest).map (· + (quoted.length + 1)) := by
  induction h with
  | nil =>
    rw [List.nil_append, closingParen_cons]
    simp [Quotes.start]
  | plain hslash hquote _ ih =>
    rw [List.cons_append, closingParen_cons]
    simp [ih, hslash, hquote, Option.map_map, Function.comp_def, Nat.add_assoc]
  | escaped _ ih =>
    rw [List.cons_append, List.cons_append, closingParen_cons, if_pos ⟨rfl, rfl⟩,
      closingParen_escaped, ih]
    simp [Option.map_map, Function.comp_def, Nat.add_assoc]

/-- **A word of the language is stepped over.** -/
theorem closingParen_nested (h : Nested inner) :
    closingParen (depth + 1) Quotes.start (inner ++ rest) =
      (closingParen (depth + 1) Quotes.start rest).map (· + inner.length) := by
  rw [Quotes.start]
  induction h generalizing depth rest with
  | nil => simp
  | plain hc _ ih =>
    simp only [List.mem_cons, List.not_mem_nil, or_false, not_or] at hc
    rw [List.cons_append, closingParen_cons]
    simp [ih, hc, Option.map_map, Function.comp_def, Nat.add_assoc]
  | escaped _ ih =>
    rw [List.cons_append, List.cons_append, closingParen_cons, if_pos ⟨rfl, rfl⟩,
      closingParen_escaped, ih]
    simp [Option.map_map, Function.comp_def, Nat.add_assoc]
  | single hquoted _ ih =>
    rw [List.cons_append, List.append_assoc, List.cons_append, closingParen_cons]
    simp [closingParen_single hquoted, Quotes.start, ih, Option.map_map, Function.comp_def,
      Nat.add_assoc, Nat.add_comm, Nat.add_left_comm]
  | double hquoted _ ih =>
    rw [List.cons_append, List.append_assoc, List.cons_append, closingParen_cons]
    simp [closingParen_double hquoted, Quotes.start, ih, Option.map_map, Function.comp_def,
      Nat.add_assoc, Nat.add_comm, Nat.add_left_comm]
  | group _ _ ih ih' =>
    rw [List.cons_append, List.append_assoc, List.cons_append, closingParen_cons]
    simp only [ih]
    rw [closingParen_cons]
    simp [ih', Option.map_map, Function.comp_def, Nat.add_assoc, Nat.add_comm, Nat.add_left_comm]

theorem exists_single (h : (closingParen depth ⟨true, false, false⟩ text).isSome) :
    ∃ quoted rest, text = quoted ++ '\'' :: rest ∧ '\'' ∉ quoted := by
  refine List.eq_append_cons_of_mem (Decidable.by_contra fun hnot ↦ ?_)
  have hnone : closingParen depth ⟨true, false, false⟩ text = none := by
    clear h
    induction text with
    | nil => rfl
    | cons c text ih =>
      obtain ⟨hc, htext⟩ := List.ne_and_not_mem_of_not_mem_cons hnot
      rw [closingParen_cons]
      simp [ih htext, Ne.symm hc]
  rw [hnone] at h
  cases h

theorem exists_double (h : (closingParen depth ⟨false, true, false⟩ text).isSome) :
    ∃ quoted rest, text = quoted ++ '"' :: rest ∧ InDouble quoted := by
  induction hn : text.length using Nat.strong_induction_on generalizing text with
  | _ n ih =>
  subst hn
  rcases text with - | ⟨c, text⟩
  · cases h
  rw [closingParen_cons] at h
  by_cases hslash : c = '\\'
  · subst hslash
    rw [if_pos ⟨rfl, rfl⟩, Option.isSome_map] at h
    rcases text with - | ⟨c, text⟩
    · cases h
    rw [closingParen_escaped, Option.isSome_map] at h
    obtain ⟨quoted, rest, rfl, hquoted⟩ := ih text.length (by simp) h rfl
    exact ⟨'\\' :: c :: quoted, rest, rfl, .escaped hquoted⟩
  by_cases hquote : c = '"'
  · exact ⟨[], text, by rw [hquote]; rfl, .nil⟩
  · simp only [hslash, hquote, false_and, if_false, Bool.not_true, Bool.false_eq_true, and_false,
      Option.isSome_map] at h
    obtain ⟨quoted, rest, rfl, hquoted⟩ := ih text.length (by simp) h rfl
    exact ⟨c :: quoted, rest, rfl, .plain hslash hquote hquoted⟩

/-- **A closing parenthesis stands behind a word of the language.** -/
theorem exists_nested (h : (closingParen (depth + 1) Quotes.start text).isSome) :
    ∃ inner rest, text = inner ++ ')' :: rest ∧ Nested inner := by
  induction hn : text.length using Nat.strong_induction_on generalizing text depth with
  | _ n ih =>
  subst hn
  rcases text with - | ⟨c, text⟩
  · cases h
  by_cases hclose : c = ')'
  · exact ⟨[], text, by rw [hclose]; rfl, .nil⟩
  rw [Quotes.start, closingParen_cons] at h
  by_cases hslash : c = '\\'
  · subst hslash
    rw [if_pos ⟨rfl, rfl⟩, Option.isSome_map] at h
    rcases text with - | ⟨c, text⟩
    · cases h
    rw [closingParen_escaped, Option.isSome_map] at h
    obtain ⟨inner, rest, rfl, hinner⟩ := ih text.length (by simp) h rfl
    exact ⟨'\\' :: c :: inner, rest, rfl, .escaped hinner⟩
  by_cases hsingle : c = '\''
  · subst hsingle
    rw [if_neg (by decide), if_pos ⟨rfl, rfl⟩, Option.isSome_map] at h
    obtain ⟨quoted, behind, rfl, hquoted⟩ := exists_single h
    rw [Bool.not_false, closingParen_single hquoted, Option.isSome_map] at h
    obtain ⟨inner, rest, rfl, hinner⟩ := ih behind.length (by simp; omega) h rfl
    exact ⟨'\'' :: (quoted ++ '\'' :: inner), rest, by simp, .single hquoted hinner⟩
  by_cases hdouble : c = '"'
  · subst hdouble
    rw [if_neg (by decide), if_neg (by decide), if_pos ⟨rfl, rfl⟩, Option.isSome_map] at h
    obtain ⟨quoted, behind, rfl, hquoted⟩ := exists_double h
    rw [Bool.not_false, closingParen_double hquoted, Option.isSome_map] at h
    obtain ⟨inner, rest, rfl, hinner⟩ := ih behind.length (by simp; omega) h rfl
    exact ⟨'"' :: (quoted ++ '"' :: inner), rest, by simp, .double hquoted hinner⟩
  by_cases hopen : c = '('
  · subst hopen
    rw [if_neg (by decide), if_neg (by decide), if_neg (by decide), if_pos ⟨rfl, rfl, rfl⟩,
      Option.isSome_map] at h
    obtain ⟨inner, behind, rfl, hinner⟩ := ih text.length (by simp) h rfl
    rw [← Quotes.start, closingParen_nested hinner, Option.isSome_map, Quotes.start,
      closingParen_cons] at h
    have hbehind : (closingParen (depth + 1) Quotes.start behind).isSome := by
      simpa [Quotes.start] using h
    obtain ⟨inner', rest, rfl, hinner'⟩ := ih behind.length (by simp; omega) hbehind rfl
    exact ⟨'(' :: (inner ++ ')' :: inner'), rest, by simp, .group hinner hinner'⟩
  · simp only [hslash, hsingle, hdouble, hopen, hclose, false_and, if_false,
      Option.isSome_map] at h
    obtain ⟨inner, rest, rfl, hinner⟩ := ih text.length (by simp) h rfl
    exact ⟨c :: inner, rest, rfl, .plain (by simp [*]) hinner⟩

/-- **Where a region ends.** -/
theorem closingParen_eq_some_iff {n : ℕ} : closingParen 1 Quotes.start text = some n ↔
    ∃ inner rest, text = inner ++ ')' :: rest ∧ Nested inner ∧ inner.length = n := by
  have hends : ∀ {inner rest}, Nested inner →
      closingParen 1 Quotes.start (inner ++ ')' :: rest) = some inner.length := fun hinner ↦ by
    rw [closingParen_nested hinner, Quotes.start, closingParen_cons]
    simp
  constructor
  · intro h
    obtain ⟨inner, rest, rfl, hinner⟩ := exists_nested (Option.isSome_of_eq_some h)
    exact ⟨inner, rest, rfl, hinner, Option.some.inj ((hends hinner).symm.trans h)⟩
  · rintro ⟨inner, rest, rfl, hinner, rfl⟩
    exact hends hinner

theorem closingBacktick_eq_some {escaped : Bool} {n : ℕ}
    (h : closingBacktick escaped text = some n) : ∃ rest, text = text.take n ++ '`' :: rest := by
  induction text generalizing escaped n with
  | nil => cases h
  | cons c text ih =>
    rw [closingBacktick] at h
    split at h
    · obtain ⟨m, hm, rfl⟩ := Option.map_eq_some_iff.mp h
      obtain ⟨rest, hrest⟩ := ih hm
      exact ⟨rest, congrArg (c :: ·) hrest⟩
    split at h
    · rename_i hc
      obtain rfl := Option.some.inj h
      exact ⟨text, by rw [hc]; rfl⟩
    · obtain ⟨m, hm, rfl⟩ := Option.map_eq_some_iff.mp h
      obtain ⟨rest, hrest⟩ := ih hm
      exact ⟨rest, congrArg (c :: ·) hrest⟩

/-- What a region is at the front of. -/
theorem substitutionAt_cases {region : Substitution} (h : substitutionAt text = some region) :
    (∃ inner rest, text = '`' :: (inner ++ '`' :: rest) ∧
      region = ⟨inner.length + 2, some inner, false⟩) ∨
    (∃ inner rest, text = '$' :: '(' :: (inner ++ ')' :: rest) ∧
      region = ⟨inner.length + 3, some inner, false⟩) ∨
    ∃ inner rest, text = '$' :: '(' :: '(' :: (inner ++ ')' :: rest) ∧ Nested ('(' :: inner) ∧
      region = ⟨inner.length + 4, arithmeticBody inner, true⟩ := by
  rw [substitutionAt.eq_def] at h
  split at h
  · rename_i text
    obtain ⟨n, hn, rfl⟩ := Option.map_eq_some_iff.mp h
    obtain ⟨rest, hrest⟩ := closingBacktick_eq_some hn
    have hlen : (text.take n).length = n := by
      have hlen := congrArg List.length hrest
      rw [List.length_append, List.length_take, List.length_cons] at hlen
      rw [List.length_take]
      omega
    exact Or.inl ⟨text.take n, rest, by rw [← hrest], by rw [hlen]⟩
  · rename_i text
    rw [Quotes.start, closingParen_cons, if_neg (by decide), if_neg (by decide),
      if_neg (by decide), if_pos ⟨rfl, rfl, rfl⟩, Option.map_map] at h
    obtain ⟨n, hn, rfl⟩ := Option.map_eq_some_iff.mp h
    obtain ⟨inner, rest, rfl, hinner, rfl⟩ := closingParen_eq_some_iff.mp hn
    rw [Function.comp_apply]
    split
    · rename_i hhead
      rcases inner with - | ⟨c, inner⟩
      · cases hhead
      obtain rfl := Option.some.inj hhead
      exact Or.inr (Or.inr ⟨inner, rest, rfl, hinner, by simp⟩)
    · exact Or.inr (Or.inl ⟨inner, rest, rfl, by simp⟩)
  · cases h

/-- A region that starts like an arithmetic one is one. -/
theorem substitutionAt_arithmetic (h : Nested ('(' :: inner)) :
    substitutionAt ('$' :: '(' :: '(' :: (inner ++ ')' :: rest)) =
      some ⟨inner.length + 4, arithmeticBody inner, true⟩ := by
  have hn : closingParen 1 Quotes.start ('(' :: (inner ++ ')' :: rest)) =
      some (inner.length + 1) := closingParen_eq_some_iff.mpr ⟨'(' :: inner, rest, rfl, h, rfl⟩
  rw [substitutionAt, Quotes.start, closingParen_cons, if_neg (by decide), if_neg (by decide),
    if_neg (by decide), if_pos ⟨rfl, rfl, rfl⟩, ← Quotes.start, hn]
  simp

/-- An inner parenthesis is closed inside. -/
theorem Nested.close_mem (h : Nested ('(' :: inner)) : ')' ∈ inner := by
  rcases h with - | ⟨hc, -⟩ | - | - | - | @⟨first, rest, -, -⟩
  · exact absurd hc (by decide)
  · exact List.mem_append_right _ List.mem_cons_self

theorem Nested.inner_ne_nil (h : Nested ('(' :: inner)) : inner ≠ [] :=
  List.ne_nil_of_mem h.close_mem

end Language

namespace Bytewise

open Text

/-! ### The scan of the bytes -/

/-- A `$(…)`, `` `…` `` or `$((…))` region found in a line. -/
structure Substitution where
  /-- Byte index just past the closing delimiter. -/
  stop : ℕ
  /-- Byte range of the text between the delimiters. -/
  body : ℕ × ℕ
  /-- `$((…))`: the body is an arithmetic expression. -/
  arithmetic : Bool
  deriving DecidableEq

/-- The depth counter would go below zero. -/
inductive Fault
  | underflow
  deriving DecidableEq

/-- The scan for the closing backtick, at byte `j`. -/
def backtickLoop (i j : ℕ) : Bytes → Option Substitution
  | [] => none
  | b :: rest =>
    if b = '\\'.toUInt8 then
      match rest with
      | [] => none
      | _ :: rest => backtickLoop i (j + 2) rest
    else if b = '`'.toUInt8 then some ⟨j + 1, (i + 1, j), false⟩
    else backtickLoop i (j + 1) rest

/-- The region that starts at byte `i` and is closed by the parenthesis at byte `j`. -/
def closedAt (i : ℕ) (arithmetic : Bool) (j : ℕ) : Substitution :=
  ⟨j + 1, if arithmetic then (i + 3, j - 1) else (i + 2, j), arithmetic⟩

/-- The scan for the closing parenthesis, at byte `j`. -/
def parenLoop (i : ℕ) (arithmetic : Bool) (depth : ℕ) (inSingle inDouble : Bool) (j : ℕ) :
    Bytes → Except Fault (Option Substitution)
  | [] => .ok none
  | b :: rest =>
    if b = '\\'.toUInt8 ∧ !inSingle then
      match rest with
      | [] => .ok none
      | _ :: rest => parenLoop i arithmetic depth inSingle inDouble (j + 2) rest
    else if b = '\''.toUInt8 ∧ !inDouble then
      parenLoop i arithmetic depth (!inSingle) inDouble (j + 1) rest
    else if b = '"'.toUInt8 ∧ !inSingle then
      parenLoop i arithmetic depth inSingle (!inDouble) (j + 1) rest
    else if b = '('.toUInt8 ∧ !inSingle ∧ !inDouble then
      parenLoop i arithmetic (depth + 1) inSingle inDouble (j + 1) rest
    else if b = ')'.toUInt8 ∧ !inSingle ∧ !inDouble then
      match depth with
      | 0 => .error .underflow
      | 1 => .ok (some (closedAt i arithmetic j))
      | depth + 2 => parenLoop i arithmetic (depth + 1) inSingle inDouble (j + 1) rest
    else parenLoop i arithmetic depth inSingle inDouble (j + 1) rest

/-- Recognise a substitution starting at byte `i`. -/
def substitutionAt (bytes : Bytes) (i : ℕ) : Except Fault (Option Substitution) :=
  if bytes[i]? = some '`'.toUInt8 then .ok (backtickLoop i (i + 1) (bytes.drop (i + 1)))
  else if bytes[i]? = some '$'.toUInt8 ∧ bytes[i + 1]? = some '('.toUInt8 then
    parenLoop i (bytes[i + 2]? = some '('.toUInt8) 0 false false (i + 1) (bytes.drop (i + 1))
  else .ok none

variable {i j depth : ℕ} {arithmetic inSingle inDouble : Bool} {bs rest : Bytes} {c : Char}
  {text inner : Str}

/-! ### The scan of the characters -/

theorem backtickLoop_cons {b : UInt8} (h : b ≠ '\\'.toUInt8) : backtickLoop i j (b :: rest) =
    if b = '`'.toUInt8 then some ⟨j + 1, (i + 1, j), false⟩ else backtickLoop i (j + 1) rest := by
  rw [backtickLoop.eq_def]
  exact if_neg h

theorem parenLoop_escape {b : UInt8} (h : b = '\\'.toUInt8 ∧ !inSingle) :
    parenLoop i arithmetic depth inSingle inDouble j (b :: rest) =
      match rest with
      | [] => .ok none
      | _ :: rest => parenLoop i arithmetic depth inSingle inDouble (j + 2) rest := by
  rw [parenLoop.eq_def]
  exact if_pos h

theorem parenLoop_cons {b : UInt8} (h : ¬ (b = '\\'.toUInt8 ∧ !inSingle)) :
    parenLoop i arithmetic depth inSingle inDouble j (b :: rest) =
      if b = '\''.toUInt8 ∧ !inDouble then
        parenLoop i arithmetic depth (!inSingle) inDouble (j + 1) rest
      else if b = '"'.toUInt8 ∧ !inSingle then
        parenLoop i arithmetic depth inSingle (!inDouble) (j + 1) rest
      else if b = '('.toUInt8 ∧ !inSingle ∧ !inDouble then
        parenLoop i arithmetic (depth + 1) inSingle inDouble (j + 1) rest
      else if b = ')'.toUInt8 ∧ !inSingle ∧ !inDouble then
        match depth with
        | 0 => .error .underflow
        | 1 => .ok (some (closedAt i arithmetic j))
        | depth + 2 => parenLoop i arithmetic (depth + 1) inSingle inDouble (j + 1) rest
      else parenLoop i arithmetic depth inSingle inDouble (j + 1) rest := by
  rw [parenLoop.eq_def]
  exact if_neg h

theorem backtickLoop_pass (h : ∀ b ∈ bs, 0x80 ≤ b.toNat) :
    backtickLoop i j (bs ++ rest) = backtickLoop i (j + bs.length) rest := by
  induction bs generalizing j with
  | nil => rfl
  | cons b bs ih =>
    obtain ⟨hb, hbs⟩ := List.forall_mem_cons.mp h
    rw [List.cons_append, backtickLoop_cons (ne_toUInt8 hb (by decide)),
      if_neg (ne_toUInt8 hb (by decide)), ih hbs, List.length_cons, Nat.add_assoc, Nat.add_comm 1]

theorem parenLoop_pass (h : ∀ b ∈ bs, 0x80 ≤ b.toNat) :
    parenLoop i arithmetic depth inSingle inDouble j (bs ++ rest) =
      parenLoop i arithmetic depth inSingle inDouble (j + bs.length) rest := by
  induction bs generalizing j with
  | nil => rfl
  | cons b bs ih =>
    obtain ⟨hb, hbs⟩ := List.forall_mem_cons.mp h
    have hne : ∀ c : Char, c.toNat < 0x80 → b ≠ c.toUInt8 := fun c hc ↦ ne_toUInt8 hb hc
    rw [List.cons_append, parenLoop_cons fun h ↦ hne '\\' (by decide) h.1,
      if_neg fun h ↦ hne '\'' (by decide) h.1, if_neg fun h ↦ hne '"' (by decide) h.1,
      if_neg fun h ↦ hne '(' (by decide) h.1, if_neg fun h ↦ hne ')' (by decide) h.1, ih hbs,
      List.length_cons, Nat.add_assoc, Nat.add_comm 1]

/-- A character that the scan does not look for. -/
theorem backtickLoop_plain (hslash : c ≠ '\\') (hclose : c ≠ '`') :
    backtickLoop i j (String.utf8EncodeChar c ++ rest) = backtickLoop i (j + c.utf8Size) rest := by
  by_cases hc : c.toNat < 0x80
  · have hsize : c.utf8Size = 1 := by
      rw [← String.length_utf8EncodeChar, utf8EncodeChar_ascii hc, List.length_singleton]
    rw [utf8EncodeChar_ascii hc, List.singleton_append,
      backtickLoop_cons (mt (toUInt8_inj hc (by decide)).mp hslash),
      if_neg (mt (toUInt8_inj hc (by decide)).mp hclose), hsize]
  · rw [backtickLoop_pass fun b ↦ ascii_le_of_mem_utf8EncodeChar (Nat.not_lt.mp hc),
      String.length_utf8EncodeChar]

theorem backtickLoop_toUtf8 (text : Str) (j : ℕ) : backtickLoop i j (toUtf8 text) =
    (closingBacktick false text).map fun n ↦
      ⟨j + byteLen (text.take n) + 1, (i + 1, j + byteLen (text.take n)), false⟩ := by
  -- a backslash takes two characters at once
  induction hn : text.length using Nat.strong_induction_on generalizing text j with
  | _ n ih =>
  subst hn
  rcases text with - | ⟨c, text⟩
  · rfl
  by_cases hslash : c = '\\'
  · subst hslash
    rw [toUtf8_cons, utf8EncodeChar_ascii (by decide), List.singleton_append, closingBacktick,
      if_neg Bool.false_ne_true, if_neg (by decide)]
    rcases text with - | ⟨c, text⟩
    · rfl
    obtain ⟨b, bs, heq, hbs, hsize⟩ := exists_utf8EncodeChar_cons c
    rw [toUtf8_cons, heq, List.cons_append, backtickLoop, if_pos rfl, backtickLoop_pass hbs,
      ih text.length (by simp) text _ rfl]
    show _ = Option.map _ (Option.map _ (closingBacktick true (c :: text)))
    rw [closingBacktick, if_pos rfl, Option.map_map, Option.map_map]
    refine Option.map_congr fun n _ ↦ ?_
    have hslash : '\\'.utf8Size = 1 := rfl
    simp [hsize, hslash]
    omega
  by_cases hclose : c = '`'
  · subst hclose
    rw [toUtf8_cons, utf8EncodeChar_ascii (by decide), List.singleton_append,
      backtickLoop_cons (by decide), if_pos rfl, closingBacktick, if_neg Bool.false_ne_true,
        if_pos rfl]
    rfl
  · rw [toUtf8_cons, backtickLoop_plain hslash hclose, ih text.length (by simp) text _ rfl,
      closingBacktick, if_neg Bool.false_ne_true, if_neg hclose, Option.map_map,
      beq_eq_false_iff_ne.mpr hslash]
    refine Option.map_congr fun n _ ↦ ?_
    simp
    omega

/-- A character that the scan does not look for. -/
theorem parenLoop_plain (hslash : ¬ (c = '\\' ∧ !inSingle)) (hsingle : ¬ (c = '\'' ∧ !inDouble))
    (hdouble : ¬ (c = '"' ∧ !inSingle)) (hopen : ¬ (c = '(' ∧ !inSingle ∧ !inDouble))
    (hclose : ¬ (c = ')' ∧ !inSingle ∧ !inDouble)) :
    parenLoop i arithmetic depth inSingle inDouble j (String.utf8EncodeChar c ++ rest) =
      parenLoop i arithmetic depth inSingle inDouble (j + c.utf8Size) rest := by
  by_cases hc : c.toNat < 0x80
  · have hsize : c.utf8Size = 1 := by
      rw [← String.length_utf8EncodeChar, utf8EncodeChar_ascii hc, List.length_singleton]
    have hbyte : ∀ c' : Char, c'.toNat < 0x80 → (c.toUInt8 = c'.toUInt8 ↔ c = c') :=
      fun c' hc' ↦ toUInt8_inj hc hc'
    rw [← hbyte _ (by decide)] at hslash hsingle hdouble hopen hclose
    rw [utf8EncodeChar_ascii hc, List.singleton_append, parenLoop_cons hslash, if_neg hsingle,
      if_neg hdouble, if_neg hopen, if_neg hclose, hsize]
  · rw [parenLoop_pass fun b ↦ ascii_le_of_mem_utf8EncodeChar (Nat.not_lt.mp hc),
      String.length_utf8EncodeChar]

/-- A quote or a parenthesis: one byte. -/
theorem parenLoop_ascii (hc : c.toNat < 0x80) (hslash : c ≠ '\\') :
    parenLoop i arithmetic depth inSingle inDouble j (toUtf8 (c :: text)) =
      if c = '\'' ∧ !inDouble then
        parenLoop i arithmetic depth (!inSingle) inDouble (j + 1) (toUtf8 text)
      else if c = '"' ∧ !inSingle then
        parenLoop i arithmetic depth inSingle (!inDouble) (j + 1) (toUtf8 text)
      else if c = '(' ∧ !inSingle ∧ !inDouble then
        parenLoop i arithmetic (depth + 1) inSingle inDouble (j + 1) (toUtf8 text)
      else if c = ')' ∧ !inSingle ∧ !inDouble then
        match depth with
        | 0 => .error .underflow
        | 1 => .ok (some (closedAt i arithmetic j))
        | depth + 2 => parenLoop i arithmetic (depth + 1) inSingle inDouble (j + 1) (toUtf8 text)
      else parenLoop i arithmetic depth inSingle inDouble (j + 1) (toUtf8 text) := by
  have hbyte : ∀ c' : Char, c'.toNat < 0x80 → (c.toUInt8 = c'.toUInt8 ↔ c = c') :=
    fun c' hc' ↦ toUInt8_inj hc hc'
  rw [toUtf8_cons, utf8EncodeChar_ascii hc, List.singleton_append,
    parenLoop_cons fun h ↦ hslash ((hbyte _ (by decide)).mp h.1)]
  simp only [hbyte _ (show '\''.toNat < 0x80 by decide), hbyte _ (show '"'.toNat < 0x80 by decide),
    hbyte _ (show '('.toNat < 0x80 by decide), hbyte _ (show ')'.toNat < 0x80 by decide)]

theorem parenLoop_toUtf8 (text : Str) (depth j : ℕ) (inSingle inDouble : Bool) :
    parenLoop i arithmetic (depth + 1) inSingle inDouble j (toUtf8 text) =
      .ok ((closingParen (depth + 1) ⟨inSingle, inDouble, false⟩ text).map fun n ↦
        closedAt i arithmetic (j + byteLen (text.take n))) := by
  -- a backslash takes two characters at once
  induction hn : text.length using Nat.strong_induction_on
    generalizing text depth j inSingle inDouble with
  | _ n ih =>
  subst hn
  rcases text with - | ⟨c, text⟩
  · rfl
  -- one character of `k` bytes is passed over
  have hpassed : ∀ (k : ℕ) (m : Option ℕ), k = c.utf8Size →
      m.map (fun n ↦ closedAt i arithmetic (j + k + byteLen (text.take n))) =
        (m.map (· + 1)).map fun n ↦ closedAt i arithmetic (j + byteLen ((c :: text).take n)) := by
    rintro k m rfl
    rw [Option.map_map]
    refine Option.map_congr fun n _ ↦ ?_
    simp [Nat.add_assoc]
  by_cases hslash : c = '\\' ∧ !inSingle
  · rw [closingParen_cons, if_pos hslash]
    obtain ⟨rfl, hsingle⟩ := hslash
    rw [toUtf8_cons, utf8EncodeChar_ascii (by decide), List.singleton_append]
    rcases text with - | ⟨c, text⟩
    · rw [toUtf8_nil, parenLoop_escape ⟨rfl, hsingle⟩]
      rfl
    obtain ⟨b, bs, heq, hbs, hsize⟩ := exists_utf8EncodeChar_cons c
    rw [toUtf8_cons, heq, List.cons_append, parenLoop_escape ⟨rfl, hsingle⟩]
    dsimp only
    rw [parenLoop_pass hbs,
      ih text.length (by simp) text _ _ _ _ rfl, closingParen, if_pos rfl, ← hpassed 1 _ rfl,
      Option.map_map]
    refine congrArg _ (Option.map_congr fun n _ ↦ ?_)
    simp [hsize]
    congr 1
    omega
  rw [closingParen_cons, if_neg hslash]
  by_cases hsingle : c = '\'' ∧ !inDouble
  · rw [if_pos hsingle, parenLoop_ascii (by rw [hsingle.1]; decide) (by rw [hsingle.1]; decide),
      if_pos hsingle, ih text.length (by simp) text _ _ _ _ rfl,
        hpassed 1 _ (by rw [hsingle.1]; rfl)]
  by_cases hdouble : c = '"' ∧ !inSingle
  · rw [if_neg hsingle, if_pos hdouble,
      parenLoop_ascii (by rw [hdouble.1]; decide) (by rw [hdouble.1]; decide), if_neg hsingle,
      if_pos hdouble, ih text.length (by simp) text _ _ _ _ rfl,
      hpassed 1 _ (by rw [hdouble.1]; rfl)]
  rw [if_neg hsingle, if_neg hdouble]
  by_cases hopen : c = '(' ∧ !inSingle ∧ !inDouble
  · rw [if_pos hopen, parenLoop_ascii (by rw [hopen.1]; decide) (by rw [hopen.1]; decide),
      if_neg hsingle, if_neg hdouble, if_pos hopen, ih text.length (by simp) text _ _ _ _ rfl,
      hpassed 1 _ (by rw [hopen.1]; rfl)]
  rw [if_neg hopen]
  by_cases hclose : c = ')' ∧ !inSingle ∧ !inDouble
  · rw [if_pos hclose, parenLoop_ascii (by rw [hclose.1]; decide) (by rw [hclose.1]; decide),
      if_neg hsingle, if_neg hdouble, if_neg hopen, if_pos hclose]
    cases depth with
    | zero => rfl
    | succ depth =>
      dsimp only
      rw [ih text.length (by simp) text _ _ _ _ rfl, hpassed 1 _ (by rw [hclose.1]; rfl),
        if_neg (by omega)]
      rfl
  · rw [if_neg hclose, toUtf8_cons, parenLoop_plain hslash hsingle hdouble hopen hclose,
      ih text.length (by simp) text _ _ _ _ rfl, hpassed _ _ rfl]

/-! ### The regions of a line -/

/-- Where the region at the front of `text` is, in the line `before ++ text`. -/
def place (before text : Str) (region : Parser.Substitution) : Substitution :=
  let i := byteLen before
  let stop := i + byteLen (text.take region.length)
  { stop
    body := if region.arithmetic then (i + 3, stop - 2)
      else if text.head? = some '`' then (i + 1, stop - 1) else (i + 2, stop - 1)
    arithmetic := region.arithmetic }

theorem getElem?_toUtf8_append (before text : Str) (k : ℕ) :
    (toUtf8 (before ++ text))[byteLen before + k]? = (toUtf8 text)[k]? := by
  rw [toUtf8_append, ← length_toUtf8, List.getElem?_append_right (Nat.le_add_right ..),
    Nat.add_sub_cancel_left]

theorem drop_toUtf8_append (before text : Str) (k : ℕ) :
    (toUtf8 (before ++ text)).drop (byteLen before + k) = (toUtf8 text).drop k := by
  rw [toUtf8_append, ← length_toUtf8, List.drop_append, List.drop_eq_nil_of_le (by omega),
    List.nil_append, Nat.add_sub_cancel_left]

theorem getElem?_zero_toUtf8 (hc : c.toNat < 0x80) :
    (toUtf8 text)[0]? = some c.toUInt8 ↔ text.head? = some c := by
  rcases text with - | ⟨c', text⟩
  · simp
  rw [List.head?_cons, Option.some.injEq]
  by_cases hc' : c'.toNat < 0x80
  · rw [toUtf8_cons, utf8EncodeChar_ascii hc', List.singleton_append, List.getElem?_cons_zero,
      Option.some.injEq, toUInt8_inj hc' hc]
  · have hne : c' ≠ c := fun h ↦ hc' (h ▸ hc)
    obtain ⟨b, bs, heq, -⟩ := exists_utf8EncodeChar_cons c'
    have hb : b ≠ c.toUInt8 := ne_toUInt8
      (ascii_le_of_mem_utf8EncodeChar (Nat.not_lt.mp hc') (heq ▸ List.mem_cons_self)) hc
    simp [toUtf8_cons, heq, hb, hne]

theorem take_closed {n : ℕ} {close : Char} (h : ∃ rest, text = text.take n ++ close :: rest)
    (hsize : close.utf8Size = 1) : byteLen (text.take (n + 1)) = byteLen (text.take n) + 1 := by
  obtain ⟨rest, hrest⟩ := h
  have hlt : n < text.length := by
    have hlen := congrArg List.length hrest
    rw [List.length_append, List.length_take, List.length_cons] at hlen
    omega
  have hclose : text[n]? = some close := by
    rw [hrest, List.getElem?_append_right (by simp)]
    simp [Nat.min_eq_left hlt.le]
  rw [List.take_add_one, hclose, byteLen_append, Option.toList_some, byteLen_cons, hsize]
  rfl

/-- **The scan of the bytes finds the regions that the scan of the characters finds.** -/
theorem substitutionAt_toUtf8 (before text : Str) :
    substitutionAt (toUtf8 (before ++ text)) (byteLen before) =
      .ok ((Parser.substitutionAt text).map (place before text)) := by
  have hbyte : ∀ k, (toUtf8 (before ++ text))[byteLen before + k]? = (toUtf8 text)[k]? :=
    getElem?_toUtf8_append before text
  rw [substitutionAt, ← Nat.add_zero (byteLen before), hbyte, Nat.add_zero, hbyte, hbyte,
    drop_toUtf8_append]
  rcases text with - | ⟨c, text⟩
  · rfl
  have hsecond : c.toNat < 0x80 → ∀ k, (toUtf8 (c :: text))[k + 1]? = (toUtf8 text)[k]? ∧
      (toUtf8 (c :: text)).drop 1 = toUtf8 text := fun hc k ↦ by
    rw [toUtf8_cons, utf8EncodeChar_ascii hc]
    exact ⟨rfl, rfl⟩
  have hfirst : ∀ c' : Char, c'.toNat < 0x80 →
      ((toUtf8 (c :: text))[0]? = some c'.toUInt8 ↔ c = c') := fun c' hc' ↦
    (getElem?_zero_toUtf8 hc').trans Option.some_inj
  by_cases hbacktick : c = '`'
  · subst hbacktick
    rw [if_pos ((hfirst '`' (by decide)).mpr rfl), (hsecond (by decide) 0).2, backtickLoop_toUtf8,
          Parser.substitutionAt,
      Option.map_map]
    refine congrArg _ (Option.map_congr fun n hn ↦ ?_)
    have htake := take_closed (closingBacktick_eq_some hn) rfl
    have hsize : '`'.utf8Size = 1 := rfl
    simp only [Function.comp_apply, place, List.take_succ_cons, byteLen_cons, htake, hsize,
      List.head?_cons, Bool.false_eq_true, if_false, if_true, Substitution.mk.injEq, Prod.mk.injEq,
      true_and, and_true]
    omega
  rw [if_neg (mt (hfirst '`' (by decide)).mp hbacktick)]
  by_cases hdollar : c = '$'
  · subst hdollar
    rw [(hsecond (by decide) 0).1, (hsecond (by decide) 1).1, (hsecond (by decide) 0).2]
    rcases text with - | ⟨c, text⟩
    · rfl
    by_cases hopen : c = '('
    · subst hopen
      have harith : (toUtf8 ('(' :: text))[1]? = (toUtf8 text)[0]? := rfl
      rw [if_pos ⟨rfl, rfl⟩, harith, parenLoop_ascii (by decide) (by decide), if_neg (by decide),
        if_neg (by decide), if_pos ⟨rfl, rfl, rfl⟩, parenLoop_toUtf8, Parser.substitutionAt,
        Quotes.start, closingParen_cons, if_neg (by decide), if_neg (by decide), if_neg (by decide),
        if_pos ⟨rfl, rfl, rfl⟩, Option.map_map, Option.map_map]
      refine congrArg _ (Option.map_congr fun n hn ↦ ?_)
      obtain ⟨inner, rest, rfl, -, rfl⟩ := closingParen_eq_some_iff.mp hn
      have htake : byteLen ((inner ++ ')' :: rest).take (inner.length + 1)) =
          byteLen ((inner ++ ')' :: rest).take inner.length) + 1 :=
        take_closed ⟨rest, by rw [List.take_left]⟩ rfl
      have hsize : '$'.utf8Size = 1 := rfl
      have hsize' : '('.utf8Size = 1 := rfl
      simp only [getElem?_zero_toUtf8 (show '('.toNat < 0x80 by decide), Function.comp_apply]
      split_ifs with hhead <;>
        simp only [place, closedAt, hhead, List.take_succ_cons, byteLen_cons, htake, hsize, hsize',
          List.head?_cons, Bool.false_eq_true, if_false, if_true, decide_true, decide_false,
          Substitution.mk.injEq, Prod.mk.injEq, true_and, and_true, Option.some.injEq,
          show ¬ '$' = '`' by decide]
      · omega
      · omega
    · have hnone : Parser.substitutionAt ('$' :: c :: text) = none := by
        rw [Parser.substitutionAt.eq_def]
        split
        · simp_all
        · simp_all
        · rfl
      have hsecond : (toUtf8 (c :: text))[0]? ≠ some '('.toUInt8 := fun h ↦
        hopen (Option.some.inj ((getElem?_zero_toUtf8 (by decide)).mp h))
      rw [if_neg fun h ↦ hsecond h.2, hnone]
      rfl
  · have hnone : Parser.substitutionAt (c :: text) = none := by
      rw [Parser.substitutionAt.eq_def]
      split
      · simp_all
      · simp_all
      · rfl
    rw [if_neg fun h ↦ hdollar ((hfirst '$' (by decide)).mp h.1), hnone]
    rfl

/-- The byte in front of a position. -/
theorem getElem?_last_toUtf8 (hc : c.toNat < 0x80) (before behind : Str) (c' : Char) :
    (toUtf8 (before ++ c' :: behind))[byteLen before + c'.utf8Size - 1]? = some c.toUInt8 ↔
      c' = c := by
  have hpos := c'.utf8Size_pos
  rw [Nat.add_sub_assoc hpos, getElem?_toUtf8_append]
  by_cases hc' : c'.toNat < 0x80
  · have hsize : c'.utf8Size = 1 := by
      rw [← String.length_utf8EncodeChar, utf8EncodeChar_ascii hc', List.length_singleton]
    rw [hsize, Nat.sub_self, getElem?_zero_toUtf8 hc, List.head?_cons, Option.some_inj]
  · have hlt : c'.utf8Size - 1 < (String.utf8EncodeChar c').length := by
      rw [String.length_utf8EncodeChar]
      omega
    rw [toUtf8_cons, List.getElem?_append_left hlt, List.getElem?_eq_getElem hlt, Option.some_inj]
    have hle := ascii_le_of_mem_utf8EncodeChar (Nat.not_lt.mp hc') (List.getElem_mem hlt)
    exact iff_of_false (ne_toUInt8 hle hc) fun h ↦ hc' (h ▸ hc)

theorem byteLen_take_closed {close : Char} (hclose : close.utf8Size = 1) (inner rest : Str) :
    byteLen ((inner ++ close :: rest).take (inner.length + 1)) = byteLen inner + 1 := by
  rw [take_closed ⟨rest, by rw [List.take_left]⟩ hclose, List.take_left]

theorem place_backtick (before inner rest : Str) (body : Option Str) :
    place before ('`' :: (inner ++ '`' :: rest)) ⟨inner.length + 2, body, false⟩ =
      ⟨byteLen before + byteLen inner + 2,
        (byteLen before + 1, byteLen before + 1 + byteLen inner), false⟩ := by
  have hsize : '`'.utf8Size = 1 := rfl
  simp only [place, List.take_succ_cons, byteLen_cons, byteLen_take_closed hsize, hsize,
    Bool.false_eq_true, if_false, List.head?_cons, if_true, Substitution.mk.injEq, Prod.mk.injEq,
    true_and, and_true]
  omega

theorem place_command (before inner rest : Str) (body : Option Str) :
    place before ('$' :: '(' :: (inner ++ ')' :: rest)) ⟨inner.length + 3, body, false⟩ =
      ⟨byteLen before + byteLen inner + 3,
        (byteLen before + 2, byteLen before + 2 + byteLen inner), false⟩ := by
  have hdollar : '$'.utf8Size = 1 := rfl
  have hopen : '('.utf8Size = 1 := rfl
  have hclose : ')'.utf8Size = 1 := rfl
  simp only [place, List.take_succ_cons, byteLen_cons, byteLen_take_closed hclose, hdollar, hopen,
    Bool.false_eq_true, if_false, List.head?_cons, Option.some_inj, show ¬ '$' = '`' by decide,
    Substitution.mk.injEq, Prod.mk.injEq, true_and, and_true]
  omega

theorem place_arithmetic (before inner rest : Str) (body : Option Str) :
    place before ('$' :: '(' :: '(' :: (inner ++ ')' :: rest)) ⟨inner.length + 4, body, true⟩ =
      ⟨byteLen before + byteLen inner + 4,
        (byteLen before + 3, byteLen before + 2 + byteLen inner), true⟩ := by
  have hdollar : '$'.utf8Size = 1 := rfl
  have hopen : '('.utf8Size = 1 := rfl
  have hclose : ')'.utf8Size = 1 := rfl
  simp only [place, List.take_succ_cons, byteLen_cons, byteLen_take_closed hclose, hdollar, hopen,
    if_true, Substitution.mk.injEq, Prod.mk.injEq, true_and, and_true]
  omega

/-- **What the scan of the characters gives as a body is what slicing the line gives**: nothing
where slicing panics. -/
theorem body_eq_slice {region : Parser.Substitution} (before : Str)
    (h : Parser.substitutionAt text = some region) : region.body =
      slice (before ++ text) (place before text region).body.1
        (place before text region).body.2 := by
  obtain ⟨inner, rest, rfl, rfl⟩ | ⟨inner, rest, rfl, rfl⟩ | ⟨inner, rest, rfl, hinner, rfl⟩ :=
    substitutionAt_cases h
  · have hslice := slice_append (before ++ ['`']) inner ('`' :: rest)
    have hlen : byteLen (before ++ ['`']) = byteLen before + 1 := byteLen_append ..
    rw [hlen, List.append_assoc] at hslice
    rw [place_backtick]
    exact hslice.symm
  · have hslice := slice_append (before ++ ['$', '(']) inner (')' :: rest)
    have hlen : byteLen (before ++ ['$', '(']) = byteLen before + 2 := byteLen_append ..
    rw [hlen, List.append_assoc] at hslice
    rw [place_command]
    exact hslice.symm
  · obtain ⟨init, c, rfl⟩ := List.eq_nil_or_concat inner |>.resolve_left hinner.inner_ne_nil
    have hlen : byteLen (before ++ ['$', '(', '(']) = byteLen before + 3 := byteLen_append ..
    rw [place_arithmetic, List.concat_eq_append, arithmeticBody, List.getLast?_concat,
      List.dropLast_concat, byteLen_append]
    have hpos := c.utf8Size_pos
    have hback : byteLen before + 2 + (byteLen init + byteLen [c]) =
        byteLen before + 3 + byteLen init + (c.utf8Size - 1) := by
      rw [byteLen_cons, show byteLen [] = 0 from rfl]
      omega
    rw [hback]
    dsimp only
    split
    · rename_i hsize
      have hslice := slice_append (before ++ ['$', '(', '(']) init (c :: ')' :: rest)
      rw [hlen, List.append_assoc] at hslice
      rw [hsize, Nat.sub_self, Nat.add_zero, List.append_assoc]
      exact hslice.symm
    · rename_i hsize
      have hinside := isCharBoundary_inside (show 0 < c.utf8Size - 1 by omega)
        (Nat.sub_lt hpos Nat.one_pos) (before ++ '$' :: '(' :: '(' :: init) (')' :: rest)
      have hlen' : byteLen (before ++ '$' :: '(' :: '(' :: init) =
          byteLen before + 3 + byteLen init := by
        rw [← hlen, ← byteLen_append, List.append_assoc]
        rfl
      rw [hlen', List.append_assoc] at hinside
      rw [slice, if_neg]
      rintro ⟨-, -, hstop⟩
      rw [List.append_assoc] at hstop
      exact Bool.noConfusion (hinside.symm.trans hstop)

/-! ### Slicing at the positions of a region -/

/-- What the callers of `substitution_at` rely on, at byte `i` of a line. -/
structure Sliceable (line : Str) (i : ℕ) : Prop where
  counted : ∃ found, substitutionAt (toUtf8 line) i = .ok found
  ordered : ∀ s, substitutionAt (toUtf8 line) i = .ok (some s) →
    i < s.body.1 ∧ s.body.1 ≤ s.body.2 ∧ s.body.2 < s.stop ∧ s.stop ≤ byteLen line
  boundaries : ∀ s, substitutionAt (toUtf8 line) i = .ok (some s) →
    isCharBoundary line s.body.1 = true ∧ isCharBoundary line s.body.2 = true ∧
      isCharBoundary line s.stop = true
  /-- An arithmetic region ends with two parentheses. -/
  closed : ∀ s, substitutionAt (toUtf8 line) i = .ok (some s) → s.arithmetic = true →
    (toUtf8 line)[s.stop - 2]? = some ')'.toUInt8 ∧ (toUtf8 line)[s.stop - 1]? = some ')'.toUInt8

/-- Where a region `$((…)` starts at byte `i`, there is a parenthesis in front of the last one. -/
def ClosesTwice (line : Str) (i : ℕ) : Prop :=
  ∀ before inner rest, line = before ++ '$' :: '(' :: '(' :: (inner ++ ')' :: rest) →
    byteLen before = i → Nested ('(' :: inner) → inner.getLast? = some ')'

theorem boundaries_of_slice {line body : Str} {start stop : ℕ}
    (h : slice line start stop = some body) :
    isCharBoundary line start = true ∧ isCharBoundary line stop = true := by
  rw [slice] at h
  split at h
  · rename_i hbounds
    exact hbounds.2
  · cases h

theorem place_ordered {region : Parser.Substitution} (before : Str)
    (h : Parser.substitutionAt text = some region) :
    byteLen before < (place before text region).body.1 ∧
      (place before text region).body.1 ≤ (place before text region).body.2 ∧
      (place before text region).body.2 < (place before text region).stop ∧
      (place before text region).stop ≤ byteLen (before ++ text) ∧
      isCharBoundary (before ++ text) (place before text region).stop = true := by
  have hstop : (place before text region).stop = byteLen (before ++ text.take region.length) :=
    (byteLen_append ..).symm
  have hline : before ++ text = before ++ text.take region.length ++ text.drop region.length := by
    rw [List.append_assoc, List.take_append_drop]
  refine and_assoc.mp (and_assoc.mp ⟨?_, ?_⟩)
  · obtain ⟨inner, rest, rfl, rfl⟩ | ⟨inner, rest, rfl, rfl⟩ | ⟨inner, rest, rfl, hinner, rfl⟩ :=
      substitutionAt_cases h
    · rw [place_backtick]
      dsimp only
      omega
    · rw [place_command]
      dsimp only
      omega
    · obtain ⟨c, inner, rfl⟩ := List.exists_cons_of_ne_nil hinner.inner_ne_nil
      have hpos := c.utf8Size_pos
      rw [place_arithmetic, byteLen_cons]
      dsimp only
      omega
  · rw [hstop, hline]
    exact ⟨by rw [byteLen_append (before ++ _)]; exact Nat.le_add_right ..,
      isCharBoundary_append ..⟩

/-- The two parentheses at the end of an arithmetic region. -/
theorem closed_arithmetic (hinner : inner ≠ []) (before rest : Str) :
    let line := before ++ '$' :: '(' :: '(' :: (inner ++ ')' :: rest)
    ((toUtf8 line)[byteLen before + byteLen inner + 4 - 2]? = some ')'.toUInt8 ↔
        inner.getLast? = some ')') ∧
      (toUtf8 line)[byteLen before + byteLen inner + 4 - 1]? = some ')'.toUInt8 := by
  obtain ⟨init, c, rfl⟩ := List.eq_nil_or_concat inner |>.resolve_left hinner
  have hlen : ∀ text, byteLen (before ++ '$' :: '(' :: '(' :: text) =
      byteLen before + byteLen text + 3 := fun text ↦ by
    rw [byteLen_append, byteLen_cons, byteLen_cons, byteLen_cons, show '$'.utf8Size = 1 from rfl,
      show '('.utf8Size = 1 from rfl]
    omega
  have hclose : ')'.utf8Size = 1 := rfl
  constructor
  · have hlast := getElem?_last_toUtf8 (show ')'.toNat < 0x80 by decide)
      (before ++ '$' :: '(' :: '(' :: init) (')' :: rest) c
    have hpos := c.utf8Size_pos
    have hindex : byteLen before + byteLen init + 3 + c.utf8Size - 1 =
        byteLen before + byteLen (init ++ [c]) + 4 - 2 := by
      rw [byteLen_append, byteLen_cons, show byteLen [] = 0 from rfl]
      omega
    rw [hlen, hindex] at hlast
    rw [List.concat_eq_append, List.getLast?_concat, Option.some_inj, ← hlast, List.append_assoc,
      List.append_assoc]
    rfl
  · have hlast := (getElem?_last_toUtf8 (show ')'.toNat < 0x80 by decide)
      (before ++ '$' :: '(' :: '(' :: init.concat c) rest ')').mpr rfl
    rw [hlen, hclose, List.append_assoc] at hlast
    exact hlast

/-- **When the positions of a region can be sliced at.** The counter never goes below zero and the
positions are ordered and inside the line. The line can be sliced at all of them, and an arithmetic
region ends as one should, if and only if there are two parentheses there. -/
theorem substitution_sliceable_iff {line : Str} {i : ℕ} (hi : isCharBoundary line i = true) :
    ((∃ found, substitutionAt (toUtf8 line) i = .ok found) ∧
      ∀ s, substitutionAt (toUtf8 line) i = .ok (some s) →
        i < s.body.1 ∧ s.body.1 ≤ s.body.2 ∧ s.body.2 < s.stop ∧ s.stop ≤ byteLen line) ∧
      (Sliceable line i ↔ ClosesTwice line i) := by
  obtain ⟨before, text, rfl, rfl⟩ := isCharBoundary_iff.mp hi
  have hscan := substitutionAt_toUtf8 before text
  have hplace : ∀ s, substitutionAt (toUtf8 (before ++ text)) (byteLen before) = .ok (some s) →
      ∃ region, Parser.substitutionAt text = some region ∧ place before text region = s :=
    fun s hs ↦ Option.map_eq_some_iff.mp (Except.ok.inj (hscan.symm.trans hs))
  have hordered : ∀ s, substitutionAt (toUtf8 (before ++ text)) (byteLen before) = .ok (some s) →
      byteLen before < s.body.1 ∧ s.body.1 ≤ s.body.2 ∧ s.body.2 < s.stop ∧
        s.stop ≤ byteLen (before ++ text) := fun s hs ↦ by
    obtain ⟨region, hregion, rfl⟩ := hplace s hs
    obtain ⟨h₁, h₂, h₃, h₄, -⟩ := place_ordered before hregion
    exact ⟨h₁, h₂, h₃, h₄⟩
  refine ⟨⟨⟨_, hscan⟩, hordered⟩, ?_⟩
  constructor
  · rintro hsliceable before' inner rest hline hbefore hinner
    obtain rfl : before = before' := by
      rw [← takeBytes_byteLen before text, hline, ← hbefore, takeBytes_byteLen]
    obtain rfl := List.append_cancel_left hline
    rw [substitutionAt_arithmetic hinner, Option.map_some, place_arithmetic] at hscan
    exact (closed_arithmetic hinner.inner_ne_nil before rest).1.mp
      (hsliceable.closed _ hscan rfl).1
  · intro hcloses
    refine ⟨⟨_, hscan⟩, hordered, fun s hs ↦ ?_, fun s hs harith ↦ ?_⟩ <;>
      obtain ⟨region, hregion, rfl⟩ := hplace s hs
    · have hbody : ∃ body, region.body = some body := by
        obtain ⟨inner, rest, rfl, rfl⟩ | ⟨inner, rest, rfl, rfl⟩ |
          ⟨inner, rest, rfl, hinner, rfl⟩ :=
          substitutionAt_cases hregion
        · exact ⟨inner, rfl⟩
        · exact ⟨inner, rfl⟩
        · have hlast := hcloses before inner rest rfl rfl hinner
          rw [arithmeticBody, hlast]
          exact ⟨inner.dropLast, rfl⟩
      obtain ⟨body, hbody⟩ := hbody
      have hslice := boundaries_of_slice ((body_eq_slice before hregion).symm.trans hbody)
      exact ⟨hslice.1, hslice.2, (place_ordered before hregion).2.2.2.2⟩
    · obtain ⟨inner, rest, rfl, rfl⟩ | ⟨inner, rest, rfl, rfl⟩ | ⟨inner, rest, rfl, hinner, rfl⟩ :=
        substitutionAt_cases hregion
      · cases harith
      · cases harith
      · rw [place_arithmetic]
        have hclosed := closed_arithmetic hinner.inner_ne_nil before rest
        exact ⟨hclosed.1.mpr (hcloses before inner rest rfl rfl hinner), hclosed.2⟩

theorem substitution_sliceable_sum : Sliceable "echo $((1+2))".toList 5 := by
  refine (substitution_sliceable_iff (by decide +kernel)).2.mpr fun before inner rest hline hbefore
    hinner ↦ ?_
  obtain rfl : before = "echo ".toList := by
    rw [← takeBytes_byteLen before, hbefore, ← hline]
    decide +kernel
  have hmem := hinner.close_mem
  obtain hrest : ['1', '+', '2', ')', ')'] = inner ++ ')' :: rest := by simpa using hline
  -- the parenthesis is the fourth or the fifth character
  rcases inner with - | ⟨a, - | ⟨b, - | ⟨c, - | ⟨d, - | ⟨e, inner⟩⟩⟩⟩⟩ <;>
    simp at hrest
  · obtain ⟨rfl, rfl, rfl, -⟩ := hrest
    exact absurd hmem (by decide)
  · rw [← hrest.2.2.2.1]
    rfl

/-- A command substitution with a subshell in it is taken for an expression, and its body ends
inside of the last character. -/
theorem substitution_not_sliceable :
    ∃ s, substitutionAt (toUtf8 "$((1)é)".toList) 0 = .ok (some s) ∧ s.arithmetic = true ∧
      isCharBoundary "$((1)é)".toList s.body.2 = false :=
  ⟨⟨8, (3, 6), true⟩, by decide +kernel⟩

end Bytewise

end Parser

end Mimic
