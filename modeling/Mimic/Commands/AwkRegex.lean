import Mathlib.Data.List.DropRight
import Mimic.Commands.AwkProgram

/-!
# Regular expressions of `awk`

A `/text/` pattern is read as a text to look for. That is what the regular expression means as long
as it has nothing but plain characters. But of the special ones the code refuses, `.`, `^` and `$`
are missing: a `.` is looked for as it stands, and anchors are dropped at the ends and looked for
elsewhere. So a pattern with one of them selects other lines than its regular expression does,
unless it is nothing but the one anchor again and again (`agrees_iff`). And a `/` in between, which
ends a regular expression, is taken for a part of it.
-/

namespace Mimic

namespace Awk

variable {e f line text needle before mid after : Str} {c : Char} {m n : ℕ}

/-! ### Regular expressions -/

/-- A regular expression of characters, `.` and anchors matches `mid`, in a line where `before` is
in front of it and `after` behind. -/
def MatchesAt : Str → Str → Str → Str → Prop
  | [], _, mid, _ => mid = []
  | d :: e, before, mid, after =>
    if d = '^' then before = [] ∧ MatchesAt e before mid after
    else if d = '$' then mid ++ after = [] ∧ MatchesAt e before mid after
    else ∃ c rest, mid = c :: rest ∧ (d = '.' ∨ d = c) ∧ MatchesAt e (before ++ [c]) rest after

/-- A regular expression of characters, `.` and anchors matches a part of the line. -/
def MatchesLine (e line : Str) : Prop :=
  ∃ before mid after, line = before ++ mid ++ after ∧ MatchesAt e before mid after

/-- An anchor. -/
def IsAnchor (c : Char) : Prop := c = '^' ∨ c = '$'

theorem matchesAt_caret : MatchesAt ('^' :: e) before mid after ↔
    before = [] ∧ MatchesAt e before mid after := by
  rw [MatchesAt, if_pos rfl]

theorem matchesAt_dollar : MatchesAt ('$' :: e) before mid after ↔
    mid ++ after = [] ∧ MatchesAt e before mid after := by
  rw [MatchesAt, if_neg (by decide), if_pos rfl]

theorem matchesAt_cons (h : ¬ IsAnchor c) : MatchesAt (c :: e) before mid after ↔
    ∃ x rest, mid = x :: rest ∧ (c = '.' ∨ c = x) ∧ MatchesAt e (before ++ [x]) rest after := by
  rw [MatchesAt, if_neg fun hc ↦ h (Or.inl hc), if_neg fun hc ↦ h (Or.inr hc)]

theorem matchesAt_append : MatchesAt (e ++ f) before mid after ↔
    ∃ mid₁ mid₂, mid = mid₁ ++ mid₂ ∧ MatchesAt e before mid₁ (mid₂ ++ after) ∧
      MatchesAt f (before ++ mid₁) mid₂ after := by
  induction e generalizing before mid with
  | nil =>
    constructor
    · intro h
      exact ⟨[], mid, rfl, rfl, by rwa [List.append_nil]⟩
    · rintro ⟨mid₁, mid₂, rfl, rfl, h⟩
      rwa [List.append_nil] at h
  | cons d e ih =>
    rw [List.cons_append]
    by_cases hcaret : d = '^'
    · subst hcaret
      simp only [matchesAt_caret, ih]
      constructor
      · rintro ⟨hb, mid₁, mid₂, rfl, h₁, h₂⟩
        exact ⟨mid₁, mid₂, rfl, ⟨hb, h₁⟩, h₂⟩
      · rintro ⟨mid₁, mid₂, rfl, ⟨hb, h₁⟩, h₂⟩
        exact ⟨hb, mid₁, mid₂, rfl, h₁, h₂⟩
    by_cases hdollar : d = '$'
    · subst hdollar
      simp only [matchesAt_dollar, ih]
      constructor
      · rintro ⟨ha, mid₁, mid₂, rfl, h₁, h₂⟩
        exact ⟨mid₁, mid₂, rfl, ⟨by rwa [List.append_assoc] at ha, h₁⟩, h₂⟩
      · rintro ⟨mid₁, mid₂, rfl, ⟨ha, h₁⟩, h₂⟩
        exact ⟨by rwa [List.append_assoc], mid₁, mid₂, rfl, h₁, h₂⟩
    have hd : ¬ IsAnchor d := fun h ↦ h.elim hcaret hdollar
    simp only [matchesAt_cons hd, ih]
    constructor
    · rintro ⟨x, rest, rfl, hx, mid₁, mid₂, rfl, h₁, h₂⟩
      exact ⟨x :: mid₁, mid₂, rfl, ⟨x, mid₁, rfl, hx, h₁⟩, by rwa [List.append_cons]⟩
    · rintro ⟨mid₁, mid₂, rfl, ⟨x, rest, rfl, hx, h₁⟩, h₂⟩
      exact ⟨x, rest ++ mid₂, rfl, hx, rest, mid₂, rfl, h₁, by rwa [List.append_cons] at h₂⟩

/-- Anchors match nothing, where they are anchored. -/
theorem matchesAt_anchors (h : ∀ c ∈ e, IsAnchor c) : MatchesAt e before mid after ↔
    mid = [] ∧ ('^' ∈ e → before = []) ∧ ('$' ∈ e → mid ++ after = []) := by
  induction e with
  | nil => simp [MatchesAt]
  | cons d e ih =>
    have ih' := ih fun c hc ↦ h c (List.mem_cons_of_mem d hc)
    rcases h d List.mem_cons_self with rfl | rfl
    · rw [matchesAt_caret, ih']
      simp only [List.mem_cons, true_or, true_implies, show ¬ '$' = '^' by decide, false_or]
      tauto
    · rw [matchesAt_dollar, ih']
      simp only [List.mem_cons, true_or, true_implies, show ¬ '^' = '$' by decide, false_or]
      tauto

/-- Plain characters match themselves. -/
theorem matchesAt_plain (h : ∀ c ∈ e, ¬ IsAnchor c ∧ c ≠ '.') :
    MatchesAt e before mid after ↔ mid = e := by
  induction e generalizing before mid with
  | nil => exact Iff.rfl
  | cons d e ih =>
    obtain ⟨hd, hdot⟩ := h d List.mem_cons_self
    rw [matchesAt_cons hd]
    constructor
    · rintro ⟨x, rest, rfl, hx, hrest⟩
      rw [hx.resolve_left hdot, (ih fun c hc ↦ h c (List.mem_cons_of_mem d hc)).1 hrest]
    · rintro rfl
      exact ⟨d, e, rfl, Or.inr rfl, (ih fun c hc ↦ h c (List.mem_cons_of_mem d hc)).2 rfl⟩

/-! ### What is looked for -/

theorem eq_trimEndMatches_append (c : Char) (text : Str) :
    ∃ n, text = Text.trimEndMatches c text ++ List.replicate n c := by
  refine ⟨(text.reverse.takeWhile (· == c)).length, ?_⟩
  have hall : ∀ x ∈ text.reverse.takeWhile (· == c), x = c := fun x hx ↦
    eq_of_beq (List.mem_takeWhile_imp (p := fun x ↦ x == c) hx)
  rw [← List.eq_replicate_of_mem hall, Text.trimEndMatches]
  conv_lhs => rw [← List.reverse_reverse text, ← List.takeWhile_append_dropWhile (p := (· == c))
    (l := text.reverse), List.reverse_append]
  congr 1
  rw [List.eq_replicate_of_mem hall, List.reverse_replicate]

theorem getLast?_trimEndMatches_ne (c : Char) (text : Str) :
    (Text.trimEndMatches c text).getLast? ≠ some c := by
  rw [Text.trimEndMatches, List.getLast?_reverse]
  intro h
  have hne : text.reverse.dropWhile (· == c) ≠ [] := fun hnil ↦ by simp [hnil] at h
  have hhead := List.head_dropWhile_not (· == c) hne
  rw [List.head?_eq_some_head hne, Option.some_inj] at h
  rw [h] at hhead
  simp at hhead

/-- A text is what is looked for, between the anchors at its ends. -/
theorem exists_regexNeedle (text : Str) : ∃ m n,
    text = List.replicate m '^' ++ regexNeedle text ++ List.replicate n '$' ∧
      (regexNeedle text).head? ≠ some '^' ∧ (regexNeedle text).getLast? ≠ some '$' := by
  obtain ⟨n, hn⟩ := eq_trimEndMatches_append '$' (Text.trimStartMatches '^' text)
  refine ⟨(text.takeWhile (· == '^')).length, n, ?_, fun h ↦ ?_, getLast?_trimEndMatches_ne _ _⟩
  · have hall : ∀ x ∈ text.takeWhile (· == '^'), x = '^' := fun x hx ↦
      eq_of_beq (List.mem_takeWhile_imp (p := fun x ↦ x == '^') hx)
    rw [List.append_assoc, regexNeedle, ← hn, ← List.eq_replicate_of_mem hall,
      Text.trimStartMatches, List.takeWhile_append_dropWhile]
  · -- what is cut off at the end leaves the start
    rw [regexNeedle] at h
    have hstart : (Text.trimStartMatches '^' text).head? = some '^' := by
      rw [hn, List.head?_append, h]
      rfl
    rw [Text.trimStartMatches] at hstart
    have hne : text.dropWhile (· == '^') ≠ [] := fun hnil ↦ by simp [hnil] at hstart
    have hhead := List.head_dropWhile_not (· == '^') hne
    rw [List.head?_eq_some_head hne, Option.some_inj] at hstart
    rw [hstart] at hhead
    simp at hhead

/-- Anchors at the ends tie what is between them to the ends of the line. -/
theorem matchesAt_anchored :
    MatchesAt (List.replicate m '^' ++ needle ++ List.replicate n '$') before mid after ↔
      (m ≠ 0 → before = []) ∧ (n ≠ 0 → after = []) ∧ MatchesAt needle before mid after := by
  have hcaret : ∀ {b md a}, MatchesAt (List.replicate m '^') b md a ↔
      md = [] ∧ (m ≠ 0 → b = []) := fun {b md a} ↦ by
    rw [matchesAt_anchors fun c hc ↦ Or.inl (List.eq_of_mem_replicate hc)]
    simp [List.mem_replicate]
  have hdollar : ∀ {b md a}, MatchesAt (List.replicate n '$') b md a ↔
      md = [] ∧ (n ≠ 0 → a = []) := fun {b md a} ↦ by
    rw [matchesAt_anchors fun c hc ↦ Or.inr (List.eq_of_mem_replicate hc)]
    simp +contextual [List.mem_replicate]
  rw [List.append_assoc, matchesAt_append]
  constructor
  · rintro ⟨mid₁, mid₂, rfl, h₁, h₂⟩
    obtain ⟨rfl, hb⟩ := hcaret.1 h₁
    obtain ⟨mid₂, mid₃, rfl, h₂, h₃⟩ := matchesAt_append.1 h₂
    obtain ⟨rfl, ha⟩ := hdollar.1 h₃
    simp only [List.append_nil, List.nil_append] at h₂ ⊢
    exact ⟨hb, ha, h₂⟩
  · rintro ⟨hb, ha, h⟩
    exact ⟨[], mid, rfl, hcaret.2 ⟨rfl, hb⟩, matchesAt_append.2 ⟨mid, [], by simp, by simpa using h,
      hdollar.2 ⟨rfl, ha⟩⟩⟩

/-- The text means the same as a regular expression and as it stands: no character of it is special,
or it is the one anchor again and again. -/
def Plain (text : Str) : Prop :=
  (∀ c ∈ text, ¬ IsAnchor c ∧ c ≠ '.') ∨ (∀ c ∈ text, c = '^') ∨ ∀ c ∈ text, c = '$'

theorem matchesLine_plain (h : ∀ c ∈ e, ¬ IsAnchor c ∧ c ≠ '.') :
    MatchesLine e line ↔ e <:+: line := by
  constructor
  · rintro ⟨before, mid, after, rfl, hm⟩
    rw [(matchesAt_plain h).1 hm]
    exact ⟨before, after, rfl⟩
  · rintro ⟨before, after, rfl⟩
    exact ⟨before, e, after, rfl, (matchesAt_plain h).2 rfl⟩

theorem regexNeedle_plain (h : ∀ c ∈ text, ¬ IsAnchor c ∧ c ≠ '.') : regexNeedle text = text := by
  obtain ⟨m, n, htext, -, -⟩ := exists_regexNeedle text
  rcases m with - | m
  · rcases n with - | n
    · simpa using htext.symm
    · refine absurd (Or.inr rfl) (h '$' ?_).1
      rw [htext]
      simp
  · refine absurd (Or.inl rfl) (h '^' ?_).1
    rw [htext]
    simp

/-- Without anchors, a text matches what differs from it at the dots only. -/
theorem matchesAt_map (g : Char → Char) (h : ∀ c ∈ e, ¬ IsAnchor c)
    (hg : ∀ c ∈ e, c ≠ '.' → g c = c) : MatchesAt e before (e.map g) after := by
  induction e generalizing before with
  | nil => rfl
  | cons d e ih =>
    refine (matchesAt_cons (h d List.mem_cons_self)).2 ⟨g d, e.map g, rfl, ?_, ih
      (fun c hc ↦ h c (List.mem_cons_of_mem d hc)) fun c hc ↦ hg c (List.mem_cons_of_mem d hc)⟩
    by_cases hd : d = '.'
    · exact Or.inl hd
    · exact Or.inr (hg d List.mem_cons_self hd).symm

/-- A `^` that is not at the start does not match in the text itself. -/
theorem not_matchesAt_caret (hne : needle ≠ []) (hhead : needle.head? ≠ some '^')
    (hmem : '^' ∈ needle) (hline : needle = before ++ mid ++ after) :
    ¬ MatchesAt needle before mid after := by
  intro hm
  obtain ⟨e, f, hsplit⟩ := List.append_of_mem hmem
  rw [hsplit] at hm
  obtain ⟨mid₁, mid₂, rfl, h₁, h₂⟩ := matchesAt_append.1 hm
  obtain ⟨hstart, -⟩ := matchesAt_caret.1 h₂
  obtain ⟨rfl, rfl⟩ := List.append_eq_nil_iff.1 hstart
  rcases e with - | ⟨d, e⟩
  · exact hhead (by rw [hsplit]; rfl)
  by_cases hdollar : d = '$'
  · subst hdollar
    have hend := (matchesAt_dollar.1 h₁).1
    simp only [List.nil_append] at hend hline
    exact hne (hline.trans hend)
  · have hd : ¬ IsAnchor d := fun hd ↦ hd.elim (fun hcaret ↦ hhead (by
      rw [hsplit, hcaret]
      rfl)) hdollar
    obtain ⟨x, rest, hx, -⟩ := (matchesAt_cons hd).1 h₁
    cases hx

/-- Nor does a `$` that is not at the end. -/
theorem not_matchesAt_dollar (hlast : needle.getLast? ≠ some '$') (hcaret : '^' ∉ needle)
    (hmem : '$' ∈ needle) : ¬ MatchesAt needle before mid after := by
  intro hm
  obtain ⟨e, f, rfl⟩ := List.append_of_mem hmem
  obtain ⟨mid₁, mid₂, rfl, -, h₂⟩ := matchesAt_append.1 hm
  obtain ⟨hend, h₂⟩ := matchesAt_dollar.1 h₂
  obtain ⟨rfl, rfl⟩ := List.append_eq_nil_iff.1 hend
  rcases List.eq_nil_or_concat f with rfl | ⟨init, d, rfl⟩
  · exact hlast (by simp)
  have hd : ¬ IsAnchor d := by
    rintro (rfl | rfl)
    · exact hcaret (by simp)
    · refine hlast ?_
      rw [List.concat_eq_append, ← List.cons_append, ← List.append_assoc, List.getLast?_concat]
  rw [List.concat_eq_append] at h₂
  obtain ⟨mid₁', mid₂', hnil, -, h₃⟩ := matchesAt_append.1 h₂
  obtain ⟨x, rest, rfl, -⟩ := (matchesAt_cons hd).1 h₃
  simp at hnil

/-- **When a `/text/` pattern selects the lines of its regular expression.** -/
theorem agrees_iff (text : Str) :
    (∀ line, regexNeedle text <:+: line ↔ MatchesLine text line) ↔ Plain text := by
  constructor
  swap
  · rintro (h | h | h) line
    · rw [regexNeedle_plain h, matchesLine_plain h]
    · have hnil : regexNeedle text = [] := by
        rw [regexNeedle, Text.trimStartMatches, List.dropWhile_eq_nil_iff.2 fun c hc ↦ by
          rw [h c hc]; rfl]
        rfl
      rw [hnil]
      refine iff_of_true (List.nil_infix) ⟨[], [], line, rfl, ?_⟩
      rw [matchesAt_anchors fun c hc ↦ Or.inl (h c hc)]
      exact ⟨rfl, fun _ ↦ rfl, fun hmem ↦ absurd (h _ hmem) (by decide)⟩
    · have hnil : regexNeedle text = [] := by
        obtain ⟨m, n, htext, -, hlast⟩ := exists_regexNeedle text
        by_contra hne
        have hsubset : regexNeedle text ⊆ text := fun c hc ↦ by
          rw [htext]
          exact List.mem_append_left _ (List.mem_append_right _ hc)
        exact hlast (by
          rw [List.getLast?_eq_some_getLast hne, h _ (hsubset (List.getLast_mem hne))])
      rw [hnil]
      refine iff_of_true (List.nil_infix) ⟨line, [], [], by simp, ?_⟩
      rw [matchesAt_anchors fun c hc ↦ Or.inr (h c hc)]
      exact ⟨rfl, fun hmem ↦ absurd (h _ hmem) (by decide), fun _ ↦ rfl⟩
  intro h
  obtain ⟨m, n, htext, hhead, hlast⟩ := exists_regexNeedle text
  have hline : ∀ {line}, regexNeedle text <:+: line → ∃ before mid after,
      line = before ++ mid ++ after ∧ (m ≠ 0 → before = []) ∧ (n ≠ 0 → after = []) ∧
        MatchesAt (regexNeedle text) before mid after := fun {line} hl ↦ by
    obtain ⟨before, mid, after, hsplit, hm⟩ := (h line).1 hl
    rw [htext, matchesAt_anchored] at hm
    exact ⟨before, mid, after, hsplit, hm⟩
  have hmatch : ∀ {line}, MatchesAt (regexNeedle text) [] line [] → regexNeedle text <:+: line :=
    fun {line} hm ↦ (h line).2 ⟨[], line, [], by simp, by
      rw [htext]
      exact matchesAt_anchored.2 ⟨fun _ ↦ rfl, fun _ ↦ rfl, hm⟩⟩
  generalize regexNeedle text = needle at *
  rcases eq_or_ne needle [] with rfl | hne
  · -- anchors only: of one kind, or the line is empty
    rcases Nat.eq_zero_or_pos m with rfl | hm
    · exact Or.inr (Or.inr fun c hc ↦ by
        rw [htext] at hc
        exact List.eq_of_mem_replicate (by simpa using hc))
    rcases Nat.eq_zero_or_pos n with rfl | hn
    · exact Or.inr (Or.inl fun c hc ↦ by
        rw [htext] at hc
        exact List.eq_of_mem_replicate (by simpa using hc))
    obtain ⟨before, mid, after, hsplit, hb, ha, hmid⟩ := @hline ['a'] List.nil_infix
    rw [hb hm.ne', ha hn.ne', show mid = [] from hmid] at hsplit
    cases hsplit
  obtain ⟨before, mid, after, hsplit, -, -, hself⟩ := hline List.infix_rfl
  by_cases hcaret : '^' ∈ needle
  · exact absurd hself (not_matchesAt_caret hne hhead hcaret hsplit)
  by_cases hdollar : '$' ∈ needle
  · exact absurd hself (not_matchesAt_dollar hlast hcaret hdollar)
  have hanchor : ∀ c ∈ needle, ¬ IsAnchor c := by
    rintro c hc (rfl | rfl)
    · exact hcaret hc
    · exact hdollar hc
  by_cases hdot : '.' ∈ needle
  · -- another character in place of each `.`
    have hinfix := hmatch (matchesAt_map (fun c ↦ if c = '.' then 'a' else c) hanchor
      fun c _ hc ↦ if_neg hc)
    have hsame := hinfix.eq_of_length (by rw [List.length_map])
    rw [hsame, List.mem_map] at hdot
    obtain ⟨c, -, hc⟩ := hdot
    split at hc
    · exact absurd hc (by decide)
    · contradiction
  have hplain : ∀ c ∈ needle, ¬ IsAnchor c ∧ c ≠ '.' :=
    fun c hc ↦ ⟨hanchor c hc, fun heq ↦ hdot (heq ▸ hc)⟩
  have hother : ∀ o : Option Char, ∃ x, o ≠ some x := fun o ↦ by
    by_cases ho : o = some 'a'
    · exact ⟨'b', by rw [ho]; decide⟩
    · exact ⟨'a', ho⟩
  -- an anchor is dropped
  rcases Nat.eq_zero_or_pos m with rfl | hm
  · rcases Nat.eq_zero_or_pos n with rfl | hn
    · left
      rw [htext]
      simpa using hplain
    obtain ⟨x, hx⟩ := hother needle.getLast?
    obtain ⟨before, mid, after, hsplit, -, ha, hmid⟩ :=
      @hline (needle ++ [x]) (List.prefix_append needle [x]).isInfix
    rw [ha hn.ne', (matchesAt_plain hplain).1 hmid, List.append_nil] at hsplit
    have := congrArg List.getLast? hsplit
    rw [List.getLast?_concat, List.getLast?_append_of_ne_nil _ hne] at this
    exact absurd this.symm hx
  · obtain ⟨x, hx⟩ := hother needle.head?
    obtain ⟨before, mid, after, hsplit, hb, -, hmid⟩ :=
      @hline (x :: needle) (List.suffix_cons x needle).isInfix
    rw [hb hm.ne', (matchesAt_plain hplain).1 hmid, List.nil_append] at hsplit
    have := congrArg List.head? hsplit
    rw [List.head?_cons, List.head?_append_of_ne_nil _ hne] at this
    exact absurd this.symm hx

/-! ### Programs -/

theorem trim_trim (text : Str) : Text.trim (Text.trim text) = Text.trim text := by
  have hstart : (Text.trim text).dropWhile Text.isWhitespace = Text.trim text := by
    rcases hcases : Text.trim text with - | ⟨c, rest⟩
    · rfl
    -- what is trimmed at the end starts as it did
    have hprefix : Text.trim text <+: text.dropWhile Text.isWhitespace := by
      rw [← List.reverse_suffix, Text.trim, List.reverse_reverse]
      exact List.dropWhile_suffix _
    obtain ⟨tail, htail⟩ := hprefix
    rw [hcases, List.cons_append] at htail
    refine List.dropWhile_cons_of_neg ?_
    have hne : text.dropWhile Text.isWhitespace ≠ [] := by simp [← htail]
    have hhead := List.head_dropWhile_not Text.isWhitespace hne
    simp only [← htail, List.head_cons] at hhead
    rw [hhead]
    exact Bool.false_ne_true
  conv_lhs => rw [Text.trim, hstart]
  rw [Text.trim, List.reverse_reverse, List.dropWhile_idempotent]

theorem stripPrefix_eq_some_iff {pre rest : Str} :
    stripPrefix pre text = some rest ↔ text = pre ++ rest := by
  rw [stripPrefix]
  constructor
  · intro h
    split at h
    · rename_i hpre
      rw [← Option.some.inj h]
      exact (List.prefix_iff_eq_append.1 hpre).symm
    · cases h
  · rintro rfl
    rw [if_pos (List.prefix_append pre rest), List.drop_left]

theorem stripSuffix_eq_some_iff {post rest : Str} :
    stripSuffix post text = some rest ↔ text = rest ++ post := by
  rw [stripSuffix]
  constructor
  · intro h
    split at h
    · rename_i hpost
      rw [← Option.some.inj h]
      exact (List.suffix_iff_eq_append.1 hpost).symm
    · cases h
  · rintro rfl
    rw [if_pos (List.suffix_append rest post), List.length_append, Nat.add_sub_cancel,
      List.take_left]

/-- **A pattern that starts with a slash** is accepted if it ends with one, without metacharacters
in between. -/
theorem parseAwkPattern_slash {src : Str} {pattern : AwkPattern} (htrim : Text.trim src = src)
    (hhead : src.head? = some '/') : parseAwkPattern src = some pattern ↔
      ∃ text, src = '/' :: (text ++ ['/']) ∧ (∀ c ∈ text, c ∉ metacharacters) ∧
        pattern = .contains (regexNeedle text) := by
  obtain ⟨rest, rfl⟩ := List.head?_eq_some_iff.1 hhead
  rw [parseAwkPattern, htrim]
  dsimp only
  rw [if_neg (List.cons_ne_nil _ _), stripPrefix_eq_some_iff.2 (List.singleton_append).symm,
    Option.bind_some]
  rcases hbody : stripSuffix ['/'] rest with - | body
  · -- no other kind of pattern starts with a slash
    have hother : ∀ pre : Str, pre.head? ≠ some '/' → pre ≠ [] →
        stripPrefix pre ('/' :: rest) = none := fun pre hpre hne ↦ by
      rw [stripPrefix, if_neg]
      rintro ⟨tail, htail⟩
      obtain ⟨c, pre, rfl⟩ := List.exists_cons_of_ne_nil hne
      exact hpre (by rw [List.head?_cons, (List.cons.inj htail).1])
    rw [hother "NR".toList (by decide) (by decide), hother ['$'] (by decide) (by decide)]
    refine iff_of_false nofun ?_
    rintro ⟨text, hsrc, -, -⟩
    rw [stripSuffix_eq_some_iff.2 (List.cons.inj hsrc).2] at hbody
    cases hbody
  · obtain rfl := stripSuffix_eq_some_iff.1 hbody
    dsimp only
    have hany : (body.any fun c ↦ metacharacters.contains c) = true ↔
        ¬ ∀ c ∈ body, c ∉ metacharacters := by
      simp [List.any_eq_true]
    constructor
    · intro h
      split at h
      · cases h
      · rename_i hmeta
        rw [hany, not_not] at hmeta
        exact ⟨body, rfl, hmeta, (Option.some.inj h).symm⟩
    · rintro ⟨text, hsrc, hmeta, rfl⟩
      obtain rfl := List.append_cancel_right (List.cons.inj hsrc).2
      rw [if_neg (by rwa [hany, not_not])]

theorem trim_patternSrc {program chunk : Str} (h : chunk ∈ awkChunks program) :
    Text.trim (patternSrc chunk) = patternSrc chunk := by
  rw [awkChunks, List.mem_filter, List.mem_map] at h
  obtain ⟨⟨raw, -, rfl⟩, -⟩ := h
  rw [patternSrc]
  split
  · exact trim_trim _
  · exact trim_trim _

theorem parseAwkPattern_of_parseRule {chunk : Str} {rule : AwkRule}
    (h : parseRule chunk = some rule) :
    parseAwkPattern (patternSrc chunk) = some rule.pattern := by
  rw [parseRule] at h
  split at h
  · cases h
  obtain ⟨pattern, hpattern, h⟩ := Option.bind_eq_some_iff.1 h
  rw [hpattern]
  split at h
  · rw [← Option.some.inj h]
  · obtain ⟨items, -, rfl⟩ := Option.map_eq_some_iff.1 h
    rfl

theorem forall₂_of_mapM_eq_some {α β : Type} {f : α → Option β} {l : List α} {l' : List β}
    (h : l.mapM f = some l') : List.Forall₂ (fun a b ↦ f a = some b) l l' := by
  induction l generalizing l' with
  | nil =>
    obtain rfl : [] = l' := by simpa using h
    exact .nil
  | cons a l ih =>
    rw [List.mapM_cons] at h
    obtain ⟨b, hb, h⟩ := Option.bind_eq_some_iff.1 h
    obtain ⟨bs, hbs, h⟩ := Option.bind_eq_some_iff.1 h
    rw [← Option.some.inj h]
    exact .cons hb (ih hbs)

/-- The rule reads its `/text/` pattern as a regular expression: it selects the lines that the
regular expression matches. Whatever else starts with a slash is no such pattern. -/
def ReadsRegex (src : Str) (rule : AwkRule) : Prop :=
  src.head? = some '/' → ∃ text, src = '/' :: (text ++ ['/']) ∧ '/' ∉ text ∧
    ∀ line fields nr, awkMatches rule.pattern line fields nr = true ↔ MatchesLine text line

/-- **When `awk` gives no wrong match set.** The rules of a program that is accepted select the
lines of their regular expressions if and only if these have no `/`, and are plain. -/
theorem parseAwk_reads_iff {program : Str} {rules : List AwkRule}
    (h : parseAwk program = some rules) :
    (∀ e ∈ (awkChunks program).zip rules, ReadsRegex (patternSrc e.1) e.2) ↔
      ∀ chunk ∈ awkChunks program, ∀ text, patternSrc chunk = '/' :: (text ++ ['/']) →
        '/' ∉ text ∧ Plain text := by
  rw [parseAwk, Option.filter_eq_some_iff] at h
  have hrules := forall₂_of_mapM_eq_some h.1
  have hpattern : ∀ {chunk rule}, (chunk, rule) ∈ (awkChunks program).zip rules →
      parseAwkPattern (patternSrc chunk) = some rule.pattern := fun he ↦
    parseAwkPattern_of_parseRule (List.forall₂_zip hrules he)
  have hmatches : ∀ {text} {rule : AwkRule}, rule.pattern = .contains (regexNeedle text) →
      ((∀ line fields nr, awkMatches rule.pattern line fields nr = true ↔ MatchesLine text line) ↔
        Plain text) := fun {text rule} hr ↦ by
    rw [← agrees_iff, hr]
    simp only [awkMatches, decide_eq_true_eq]
    exact ⟨fun h line ↦ h line [] 0, fun h line _ _ ↦ h line⟩
  constructor
  · intro hreads chunk hchunk text hsrc
    obtain ⟨i, hi, rfl⟩ := List.mem_iff_getElem.1 hchunk
    have hlen := hrules.length_eq
    have he : ((awkChunks program)[i], rules[i]) ∈ (awkChunks program).zip rules := by
      rw [List.mem_iff_getElem]
      exact ⟨i, by simp only [List.length_zip]; omega, List.getElem_zip⟩
    have hhead : (patternSrc (awkChunks program)[i]).head? = some '/' := by rw [hsrc]; rfl
    obtain ⟨text', hsrc', hslash, hall⟩ := hreads _ he hhead
    obtain ⟨text'', hsrc'', -, hr⟩ :=
      (parseAwkPattern_slash (trim_patternSrc hchunk) hhead).1 (hpattern he)
    rw [hsrc] at hsrc' hsrc''
    obtain rfl := List.append_cancel_right (List.cons.inj hsrc').2
    obtain rfl := List.append_cancel_right (List.cons.inj hsrc'').2
    exact ⟨hslash, (hmatches hr).1 hall⟩
  · rintro hplain ⟨chunk, rule⟩ he hhead
    have hchunk : chunk ∈ awkChunks program := (List.of_mem_zip he).1
    obtain ⟨text, hsrc, -, hr⟩ :=
      (parseAwkPattern_slash (trim_patternSrc hchunk) hhead).1 (hpattern he)
    obtain ⟨hslash, htext⟩ := hplain chunk hchunk text hsrc
    exact ⟨text, hsrc, hslash, (hmatches hr).2 htext⟩

/-- `awk '/root/'`. -/
theorem parseAwk_reads_root : ∃ rules, parseAwk ['/', 'r', 'o', 'o', 't', '/'] = some rules ∧
    ∀ e ∈ (awkChunks ['/', 'r', 'o', 'o', 't', '/']).zip rules,
      ReadsRegex (patternSrc e.1) e.2 := by
  have hparse : parseAwk ['/', 'r', 'o', 'o', 't', '/'] =
      some [⟨.contains ['r', 'o', 'o', 't'], none⟩] := by
    decide +kernel
  refine ⟨_, hparse, (parseAwk_reads_iff hparse).2 fun chunk hchunk text htext ↦ ?_⟩
  have hchunks : awkChunks ['/', 'r', 'o', 'o', 't', '/'] = [['/', 'r', 'o', 'o', 't', '/']] := by
    decide +kernel
  rw [hchunks, List.mem_singleton] at hchunk
  subst hchunk
  have hsrc : patternSrc ['/', 'r', 'o', 'o', 't', '/'] =
      '/' :: (['r', 'o', 'o', 't'] ++ ['/']) := by
    decide +kernel
  rw [hsrc] at htext
  obtain rfl := List.append_cancel_right (List.cons.inj htext).2
  refine ⟨by decide, Or.inl ?_⟩
  simp [IsAnchor]

/-- `awk '/^o/'` selects the line `xo`. -/
theorem parseAwk_misreads : ∃ rules, parseAwk ['/', '^', 'o', '/'] = some rules ∧
    ¬ ∀ e ∈ (awkChunks ['/', '^', 'o', '/']).zip rules, ReadsRegex (patternSrc e.1) e.2 := by
  refine ⟨[⟨.contains ['o'], none⟩], by decide +kernel, fun h ↦ ?_⟩
  have he : (['/', '^', 'o', '/'], (⟨.contains ['o'], none⟩ : AwkRule)) ∈
      (awkChunks ['/', '^', 'o', '/']).zip [⟨.contains ['o'], none⟩] := by
    rw [show awkChunks ['/', '^', 'o', '/'] = [['/', '^', 'o', '/']] by decide +kernel]
    exact List.mem_singleton.2 rfl
  have hsrc : patternSrc ['/', '^', 'o', '/'] = '/' :: (['^', 'o'] ++ ['/']) := by decide +kernel
  obtain ⟨text, htext, -, hread⟩ := h _ he (by rw [hsrc]; rfl)
  rw [hsrc] at htext
  obtain rfl := List.append_cancel_right (List.cons.inj htext).2
  obtain ⟨before, mid, after, hline, hm⟩ := (hread ['x', 'o'] [] 1).1 (by decide)
  obtain ⟨rfl, hm⟩ := matchesAt_caret.1 hm
  obtain ⟨x, rest, rfl, hx, -⟩ := (matchesAt_cons (by simp [IsAnchor])).1 hm
  have hr : 'o' = x := hx.resolve_left (by decide)
  obtain ⟨hx', -⟩ := List.cons.inj hline
  rw [← hr] at hx'
  exact absurd hx' (by decide)

end Awk

end Mimic
