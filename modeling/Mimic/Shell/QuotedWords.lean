import Mimic.Shell.RedirectWords
import Mimic.Shell.Syntax

/-!
# Words that are written in quotes

How the scans of a line read the words of a tree. Every scan follows the reading of the line
(`Parser.reading`), so it is enough to know which characters of a word are read outside of quotes:
none but quotes, backslashes and dollars (`still_word`). Only the scan for the parenthesis that
closes a substitution goes its own way, and words are balanced for it (`balanced_word`). What the
one-pass reader makes of a word is its value (`readLoop_word`).
-/

namespace Mimic

namespace Syntax

open Mimic.Interp Mimic.Parser Outcomes Pieces

variable {q : Quotes} {c : Char} {skip : ℕ} {text text' rest : Str} {xs ys : List Marked}

/-! ### The scans and the reading -/

/-- A text that is read like this wherever it stands outside of quotes, and behind which there are
no quotes open. -/
def Reads (text : Str) (xs : List Marked) : Prop :=
  ∀ rest, readingLoop 0 Quotes.start (text ++ rest) = xs ++ readingLoop 0 Quotes.start rest

theorem Reads.append (h : Reads text xs) (h' : Reads text' ys) :
    Reads (text ++ text') (xs ++ ys) := fun rest ↦ by
  rw [List.append_assoc, h, h', List.append_assoc]

theorem Reads.reading (h : Reads text xs) : reading text = xs := by
  have hend := h []
  rwa [List.append_nil, readingLoop, List.append_nil] at hend

theorem Reads.plain (h : Reads text xs) : plain xs = text := by
  rw [← h.reading]
  exact plain_readingLoop 0 Quotes.start text

theorem reads_bare (h : text.all isOrdinary = true) : Reads text (bare text) := fun rest ↦ by
  induction text with
  | nil => rfl
  | cons c text ih =>
    rw [List.all_cons, Bool.and_eq_true] at h
    rw [List.cons_append, readingLoop_zero, after_ordinary h.1, ih h.2]
    rfl

theorem reads_char (hc : isOrdinary c = true) : Reads [c] [(c, some Quotes.start)] :=
  reads_bare (by rw [List.all_cons, hc]; rfl)

theorem splitHeredocLoop_plain (before : Str) (h : ¬ (c = '<' ∧ q = Quotes.start)) :
    splitHeredocLoop before 0 q (c :: rest) = splitHeredocLoop (before ++ [c])
      (after q (c :: rest) c).1 (after q (c :: rest) c).2 rest := by
  rw [splitHeredocLoop, after]
  cases hq : q.escaped with
  | true => rfl
  | false =>
    rw [if_neg Bool.false_ne_true, if_neg Bool.false_ne_true]
    rcases skipAt q (c :: rest) with - | n
    · rcases q.quote? c with - | q'
      · exact if_neg fun hdoc ↦ h ⟨hdoc.1, (bare_iff hq).mp hdoc.2.1⟩
      · rfl
    · rfl

/-- Where no `<` is read there is no here-document. -/
theorem splitHeredocLoop_eq_none (before : Str)
    (h : ('<', some Quotes.start) ∉ readingLoop skip q text) :
    splitHeredocLoop before skip q text = none := by
  induction text generalizing before skip q with
  | nil => rfl
  | cons c text ih =>
    cases skip with
    | succ skip =>
      rw [readingLoop_skip] at h
      exact ih _ fun hmem ↦ h (List.mem_cons_of_mem _ hmem)
    | zero =>
      rw [readingLoop_zero] at h
      rw [splitHeredocLoop_plain before]
      · exact ih _ fun hmem ↦ h (List.mem_cons_of_mem _ hmem)
      · rintro ⟨rfl, rfl⟩
        exact h List.mem_cons_self

/-- Where no `#` is read there is no comment. -/
theorem cutComment_eq_self (wordStart : Bool) (h : ('#', some Quotes.start) ∉ xs) :
    cutComment wordStart xs = xs := by
  induction xs generalizing wordStart with
  | nil => rfl
  | cons x xs ih =>
    rw [cutComment, if_neg, ih _ fun hmem ↦ h (List.mem_cons_of_mem x hmem)]
    rintro ⟨rfl, -⟩
    exact h List.mem_cons_self

/-- A character that ends a word. -/
def stopsWord (x : Marked) : Bool :=
  x.2 == some Quotes.start && (x.1 == '>' || x.1 == '<' || isAsciiWhitespace x.1)

theorem stopsWord_iff : stopsWord (c, some q) = true ↔
    (c = '>' ∨ c = '<' ∨ isAsciiWhitespace c = true) ∧ q = Quotes.start := by
  rw [stopsWord, Bool.and_eq_true, beq_iff_eq, Option.some_inj, and_comm]
  simp only [Bool.or_eq_true, beq_iff_eq, or_assoc]

theorem isOrdinary_of_stopsWord (h : stopsWord (c, some q) = true) : isOrdinary c = true := by
  rcases (stopsWord_iff.mp h).1 with rfl | rfl | hc
  · decide
  · decide
  · simp only [isAsciiWhitespace, Bool.or_eq_true, beq_iff_eq] at hc
    rcases hc with (((rfl | rfl) | rfl) | rfl) | rfl <;> decide

theorem wordEnd_zero : wordEnd 0 q (c :: rest) =
    if stopsWord (c, some q) = true then 0
    else wordEnd (after q (c :: rest) c).1 (after q (c :: rest) c).2 rest + 1 := by
  by_cases hstop : stopsWord (c, some q) = true
  · obtain ⟨hc, rfl⟩ := stopsWord_iff.mp hstop
    rw [if_pos hstop, wordEnd, skipAt_ordinary (isOrdinary_of_stopsWord hstop),
      quote?_ordinary (isOrdinary_of_stopsWord hstop)]
    have hend : (c = '>' ∨ c = '<' ∨ isAsciiWhitespace c = true) ∧ Quotes.start.bare = true :=
      ⟨hc, rfl⟩
    exact if_pos hend
  rw [if_neg hstop, wordEnd, after]
  cases hq : q.escaped with
  | true => rfl
  | false =>
    rw [if_neg Bool.false_ne_true, if_neg Bool.false_ne_true]
    rcases skipAt q (c :: rest) with - | n
    · rcases q.quote? c with - | q'
      · exact if_neg fun h ↦ hstop (stopsWord_iff.mpr ⟨h.1, (bare_iff hq).mp h.2⟩)
      · rfl
    · rfl

/-- The word at the front of a text goes up to the first character that ends one. -/
theorem wordEnd_eq (skip : ℕ) (q : Quotes) (text : Str) : wordEnd skip q text =
    ((readingLoop skip q text).takeWhile fun x ↦ !stopsWord x).length := by
  induction text generalizing skip q with
  | nil => rfl
  | cons c text ih =>
    cases skip with
    | succ skip =>
      rw [readingLoop_skip, List.takeWhile_cons_of_pos rfl, List.length_cons, ← ih]
      rfl
    | zero =>
      rw [readingLoop_zero, wordEnd_zero, List.takeWhile_cons, ih]
      cases stopsWord (c, some q) <;> rfl

/-- A text in which no `>` is read is copied. -/
theorem splitRedirectsLoop_copy (command : Str) (word : Option Str)
    (h : readingLoop skip q (text ++ rest) = xs ++ readingLoop 0 Quotes.start rest)
    (hplain : plain xs = text) (hredirect : ('>', some Quotes.start) ∉ xs) :
    ∃ word', splitRedirectsLoop command word skip true q (text ++ rest) =
      splitRedirectsLoop (command ++ text) word' 0 true Quotes.start rest := by
  induction text generalizing command word skip q xs with
  | nil =>
    obtain rfl := List.map_eq_nil_iff.mp hplain
    rw [List.nil_append, List.nil_append] at h
    refine ⟨word, ?_⟩
    rw [List.append_nil, List.nil_append]
    rcases rest with - | ⟨c, rest⟩
    · rfl
    cases skip with
    | succ skip => cases congrArg Prod.snd (List.cons.inj (readingLoop_skip.symm.trans h)).1
    | zero =>
      rw [readingLoop_zero, readingLoop_zero] at h
      obtain rfl := Option.some.inj (congrArg Prod.snd (List.cons.inj h).1)
      rfl
  | cons c text ih =>
    rcases xs with - | ⟨x, xs⟩
    · cases hplain
    obtain ⟨-, hplain⟩ := List.cons.inj hplain
    have hrest := fun hmem ↦ hredirect (List.mem_cons_of_mem x hmem)
    cases skip with
    | succ skip =>
      rw [List.cons_append, readingLoop_skip] at h
      obtain ⟨word', hcopy⟩ := ih (command ++ [c]) word (List.cons.inj h).2 hplain hrest
      exact ⟨word', hcopy.trans (by rw [List.append_assoc]; rfl)⟩
    | zero =>
      rw [List.cons_append, readingLoop_zero] at h
      obtain ⟨hx, h⟩ := List.cons.inj h
      have hnot : ¬ (c = '>' ∧ q = Quotes.start) := by
        rintro ⟨rfl, rfl⟩
        exact hredirect (hx ▸ List.mem_cons_self)
      obtain ⟨word', hcopy⟩ :=
        ih (command ++ [c]) (wordAfter word q c (text ++ rest)) h hplain hrest
      refine ⟨word', ?_⟩
      rw [List.cons_append, splitRedirectsLoop_plain command hnot, hcopy, List.append_assoc]
      rfl

/-! ### Words are read in quotes -/

/-- In single quotes. -/
def single : Quotes := ⟨true, false, false⟩

/-- In double quotes. -/
def double : Quotes := ⟨false, true, false⟩

/-- A text of which nothing but quotes, backslashes and dollars is read outside of quotes. -/
def Still (text : Str) : Prop :=
  ∃ xs, Reads text xs ∧ ∀ c, (c, some Quotes.start) ∈ xs → isOrdinary c = false

theorem still_nil : Still [] := ⟨[], fun _ ↦ rfl, fun _ h ↦ absurd h List.not_mem_nil⟩

theorem Still.append (h : Still text) (h' : Still text') : Still (text ++ text') := by
  obtain ⟨xs, hxs, hstill⟩ := h
  obtain ⟨ys, hys, hstill'⟩ := h'
  exact ⟨xs ++ ys, hxs.append hys, fun c hc ↦
    (List.mem_append.mp hc).elim (hstill c) (hstill' c)⟩

theorem still_flatMap {β : Type} {f : β → Str} (items : List β) (h : ∀ x ∈ items, Still (f x)) :
    Still (items.flatMap f) := by
  induction items with
  | nil => exact still_nil
  | cons x items ih =>
    rw [List.flatMap_cons]
    exact (h x List.mem_cons_self).append (ih fun y hy ↦ h y (List.mem_cons_of_mem x hy))

theorem after_of_skipAt (hq : q.escaped = false) (hskip : skipAt q text = none) :
    after q text c = (0, (q.quote? c).getD q) := by
  rw [after, hq, hskip]
  rcases q.quote? c with - | q' <;> rfl

theorem quote?_single (h : c ≠ '\'') : single.quote? c = none := by
  rw [Quotes.quote?, if_neg, if_neg, if_neg]
  · exact fun hc ↦ Bool.false_ne_true hc.2
  · exact fun hc ↦ h hc.1
  · exact fun hc ↦ Bool.false_ne_true hc.2

theorem readingLoop_single (h : c ≠ '\'') : readingLoop 0 single (c :: rest) =
    (c, some single) :: readingLoop 0 single rest := by
  rw [readingLoop_zero, after_of_skipAt rfl rfl, quote?_single h]
  rfl

theorem readingLoop_quote : readingLoop 0 single ('\'' :: rest) =
    ('\'', some single) :: readingLoop 0 Quotes.start rest := rfl

theorem readingLoop_start_single : readingLoop 0 Quotes.start ('\'' :: rest) =
    ('\'', some Quotes.start) :: readingLoop 0 single rest := by
  rw [readingLoop_zero, after_of_skipAt rfl (skipAt_of_ne (by decide) (by decide))]
  rfl

theorem readingLoop_start_escape : readingLoop 0 Quotes.start ('\\' :: c :: rest) =
    ('\\', some Quotes.start) :: (c, some ⟨false, false, true⟩) ::
      readingLoop 0 Quotes.start rest := by
  rw [readingLoop_zero, after_of_skipAt rfl (skipAt_of_ne (by decide) (by decide))]
  rfl

theorem quoted_cons (h : c ≠ '\'') (value : Str) : quoted (c :: value) = c :: quoted value := by
  rw [quoted, List.flatMap_cons, if_neg h]
  rfl

/-- A text in single quotes, up to the quote that ends it. -/
theorem reads_quoted (value : Str) : ∃ xs, (∀ rest,
    readingLoop 0 single (quoted value ++ '\'' :: rest) =
      xs ++ readingLoop 0 Quotes.start rest) ∧
    ∀ c, (c, some Quotes.start) ∈ xs → isOrdinary c = false := by
  induction value with
  | nil =>
    refine ⟨[('\'', some single)], fun rest ↦ readingLoop_quote, fun c hc ↦ ?_⟩
    cases List.mem_singleton.mp hc
  | cons c value ih =>
    obtain ⟨xs, hxs, hstill⟩ := ih
    by_cases hc : c = '\''
    · subst hc
      refine ⟨('\'', some single) :: ('\\', some Quotes.start) ::
        ('\'', some ⟨false, false, true⟩) :: ('\'', some Quotes.start) :: xs, fun rest ↦ ?_, ?_⟩
      · show readingLoop 0 single ('\'' :: '\\' :: '\'' :: '\'' :: (quoted value ++ _)) = _
        rw [readingLoop_quote, readingLoop_start_escape, readingLoop_start_single, hxs]
        rfl
      · intro c hc
        simp only [List.mem_cons, Prod.mk.injEq] at hc
        rcases hc with ⟨rfl, -⟩ | ⟨rfl, -⟩ | ⟨rfl, -⟩ | ⟨rfl, -⟩ | hc
        · decide
        · decide
        · decide
        · decide
        · exact hstill c hc
    · refine ⟨(c, some single) :: xs, fun rest ↦ ?_, fun c' hc' ↦ ?_⟩
      · rw [quoted_cons hc, List.cons_append, readingLoop_single hc, hxs, List.cons_append]
      · rcases List.mem_cons.mp hc' with heq | hmem
        · cases heq
        · exact hstill c' hmem

theorem still_single (value : Str) : Still ('\'' :: quoted value ++ ['\'']) := by
  obtain ⟨xs, hxs, hstill⟩ := reads_quoted value
  refine ⟨('\'', some Quotes.start) :: xs, fun rest ↦ ?_, fun c hc ↦ ?_⟩
  · rw [List.cons_append, List.cons_append, List.append_assoc, readingLoop_start_single]
    exact congrArg _ (hxs rest)
  · rcases List.mem_cons.mp hc with heq | hmem
    · obtain ⟨rfl, -⟩ := Prod.mk.inj heq
      decide
    · exact hstill c hmem

/-- A character of a parameter: no parenthesis, no quote, no backslash and no backtick. -/
def isDull (c : Char) : Bool := c != '(' && c != ')' && (c == '$' || isOrdinary c)

theorem isDull_iff : isDull c = true ↔ (c ≠ '(' ∧ c ≠ ')') ∧ (c = '$' ∨ isOrdinary c = true) := by
  rw [isDull, Bool.and_eq_true, Bool.and_eq_true, bne_iff_ne, bne_iff_ne, Bool.or_eq_true,
    beq_iff_eq]

theorem isOrdinary_of_name (h : c.isAlphanum = true ∨ c = '_') : isOrdinary c = true := by
  rw [isOrdinary, Bool.not_eq_true', ← Bool.not_eq_true]
  intro hc
  simp only [Bool.or_eq_true, beq_iff_eq] at hc
  rcases hc with (((rfl | rfl) | rfl) | rfl) | rfl <;> revert h <;> decide

theorem isDull_of_name (h : c.isAlphanum = true ∨ c = '_') : isDull c = true := by
  refine isDull_iff.mpr ⟨⟨?_, ?_⟩, .inr (isOrdinary_of_name h)⟩ <;> rintro rfl <;> revert h <;>
    decide

theorem name_of_isName {name : Str} (h : isName name = true) :
    ∀ c ∈ name, c.isAlphanum = true ∨ c = '_' := by
  rcases name with - | ⟨c, rest⟩
  · cases h
  rw [isName, Bool.and_eq_true, Bool.or_eq_true, beq_iff_eq, List.all_eq_true] at h
  refine List.forall_mem_cons.mpr ⟨h.1.imp_left fun hc ↦ ?_, fun c' hc' ↦ ?_⟩
  · rw [Char.isAlphanum, hc, Bool.true_or]
  · simpa only [Bool.or_eq_true, beq_iff_eq] using h.2 c' hc'

theorem ref_dull (r : Ref) : r.text.all isDull = true := by
  rcases r with - | - | ⟨name, hname⟩
  · decide
  · decide
  · rw [Ref.text, List.all_append, List.all_cons, List.all_cons, List.all_eq_true.mpr fun c hc ↦
      isDull_of_name (name_of_isName hname c hc)]
    decide

theorem quote?_dull (h : isDull c = true) : q.quote? c = none := by
  rcases (isDull_iff.mp h).2 with rfl | hc
  · rw [Quotes.quote?, if_neg fun h ↦ absurd h.1 (by decide),
      if_neg fun h ↦ absurd h.1 (by decide), if_neg fun h ↦ absurd h.1 (by decide)]
  · exact quote?_ordinary hc

/-- A dollar starts a region only in front of a parenthesis. -/
theorem skipAt_dull (h : isDull c = true) (hrest : rest.head? ≠ some '(') :
    skipAt q (c :: rest) = none := by
  rcases (isDull_iff.mp h).2 with rfl | hc
  · rw [skipAt_eq]
    split
    · rfl
    split
    · rename_i heq
      exact absurd (List.cons.inj heq).1 (by decide)
    · rename_i heq
      rw [(List.cons.inj heq).2] at hrest
      exact absurd rfl hrest
    · rfl
  · exact skipAt_ordinary hc

/-- Behind a dull text there is no parenthesis. -/
theorem head_dull (h : text.all isDull = true) : (text ++ '"' :: rest).head? ≠ some '(' := by
  rcases text with - | ⟨c, text⟩
  · exact fun hc ↦ absurd (Option.some.inj hc) (by decide)
  · rw [List.all_cons, Bool.and_eq_true] at h
    exact fun hc ↦ (isDull_iff.mp h.1).1.1 (Option.some.inj hc)

theorem readingLoop_dull (h : text.all isDull = true) (rest : Str) :
    readingLoop 0 double (text ++ '"' :: rest) =
      (text.map fun c ↦ (c, some double)) ++ ('"', some double) ::
        readingLoop 0 Quotes.start rest := by
  induction text with
  | nil =>
    show readingLoop 0 double ('"' :: rest) = _
    rw [readingLoop_zero, after_of_skipAt rfl (skipAt_of_ne (by decide) (by decide))]
    rfl
  | cons c text ih =>
    rw [List.all_cons, Bool.and_eq_true] at h
    rw [List.cons_append, readingLoop_zero, after_of_skipAt rfl (skipAt_dull h.1 (head_dull h.2)),
      quote?_dull h.1]
    exact congrArg _ (ih h.2)

theorem still_double (h : text.all isDull = true) : Still ('"' :: text ++ ['"']) := by
  refine ⟨('"', some Quotes.start) :: ((text.map fun c ↦ (c, some double)) ++
    [('"', some double)]), fun rest ↦ ?_, fun c hc ↦ ?_⟩
  · rw [List.cons_append, List.cons_append, List.append_assoc, readingLoop_zero,
      after_of_skipAt rfl (skipAt_of_ne (by decide) (by decide))]
    exact congrArg _ ((readingLoop_dull h rest).trans (List.append_assoc _ [_] _).symm)
  · rcases List.mem_cons.mp hc with heq | hmem
    · obtain ⟨rfl, -⟩ := Prod.mk.inj heq
      decide
    · rcases List.mem_append.mp hmem with hmem | hmem
      · obtain ⟨c', -, heq⟩ := List.mem_map.mp hmem
        cases congrArg Prod.snd heq
      · cases congrArg Prod.snd (List.mem_singleton.mp hmem)

theorem still_part (part : Part) : Still part.written := by
  cases part with
  | text value => exact still_single value
  | ref r => exact still_double (ref_dull r)

theorem still_word (w : Word) : Still (Word.text w) :=
  (still_single []).append (still_flatMap w fun part _ ↦ still_part part)

/-! ### Substitutions are balanced -/

/-- The scan for a closing parenthesis gets over a text with the same parentheses open. -/
def Passes (q : Quotes) (text : Str) (q' : Quotes) : Prop :=
  ∀ depth rest, closingParen (depth + 1) q (text ++ rest) =
    (closingParen (depth + 1) q' rest).map (· + text.length)

/-- A text over which the parentheses that are open stay open. -/
abbrev Balanced (text : Str) : Prop := Passes Quotes.start text Quotes.start

theorem passes_nil : Passes q [] q := fun depth rest ↦ by
  rw [List.nil_append]
  exact Option.map_id'.symm

theorem Passes.append {q' q'' : Quotes} (h : Passes q text q') (h' : Passes q' text' q'') :
    Passes q (text ++ text') q'' := fun depth rest ↦ by
  rw [List.append_assoc, h, h', Option.map_map, List.length_append]
  refine Option.map_congr fun n _ ↦ ?_
  rw [Function.comp_apply]
  omega

theorem passes_flatMap {β : Type} {f : β → Str} (items : List β)
    (h : ∀ x ∈ items, Passes q (f x) q) : Passes q (items.flatMap f) q := by
  induction items with
  | nil => exact passes_nil
  | cons x items ih =>
    rw [List.flatMap_cons]
    exact (h x List.mem_cons_self).append (ih fun y hy ↦ h y (List.mem_cons_of_mem x hy))

/-- A character that is no quoting, and no parenthesis unless it is quoted. -/
theorem passes_plain (hq : q.escaped = false) (hquote : q.quote? c = none)
    (hparen : q.bare = true → c ≠ '(' ∧ c ≠ ')') : Passes q [c] q := fun depth rest ↦ by
  rw [List.singleton_append, closingParen, hq, hquote]
  show (if c = '(' ∧ q.bare = true then _ else if c = ')' ∧ q.bare = true then _ else _) = _
  rw [if_neg fun h ↦ (hparen h.2).1 h.1, if_neg fun h ↦ (hparen h.2).2 h.1]
  rfl

theorem passes_quote {q' : Quotes} (hq : q.escaped = false) (hquote : q.quote? c = some q') :
    Passes q [c] q' := fun depth rest ↦ by
  rw [List.singleton_append, closingParen, hq, hquote]
  rfl

theorem passes_escaped : Passes ⟨false, false, true⟩ [c] Quotes.start := fun _ _ ↦ rfl

theorem balanced_char (hc : isOrdinary c = true) (hparen : c ≠ '(' ∧ c ≠ ')') : Balanced [c] :=
  passes_plain rfl (quote?_ordinary hc) fun _ ↦ hparen

theorem balanced_all (h : (text.all fun c ↦ isOrdinary c && c != '(' && c != ')') = true) :
    Balanced text := by
  have hchar : ∀ c ∈ text, (isOrdinary c = true ∧ c ≠ '(') ∧ c ≠ ')' := fun c hc ↦ by
    have := List.all_eq_true.mp h c hc
    rwa [Bool.and_eq_true, Bool.and_eq_true, bne_iff_ne, bne_iff_ne] at this
  have hflat := passes_flatMap (q := Quotes.start) text fun c hc ↦
    balanced_char (hchar c hc).1.1 ⟨(hchar c hc).1.2, (hchar c hc).2⟩
  rwa [List.flatMap_singleton'] at hflat

theorem balanced_single (value : Str) : Balanced ('\'' :: quoted value ++ ['\'']) := by
  have hopen : Passes Quotes.start ['\''] single := passes_quote rfl rfl
  have hclose : Passes single ['\''] Quotes.start := passes_quote rfl rfl
  have hescape : Passes Quotes.start ['\\'] ⟨false, false, true⟩ := passes_quote rfl rfl
  refine hopen.append (Passes.append (passes_flatMap value fun c _ ↦ ?_) hclose)
  split
  · exact hclose.append (hescape.append (passes_escaped.append hopen))
  · rename_i hc
    exact passes_plain rfl (quote?_single hc) fun hbare ↦ absurd hbare (by decide)

theorem balanced_double (h : text.all isDull = true) : Balanced ('"' :: text ++ ['"']) := by
  have hopen : Passes Quotes.start ['"'] double := passes_quote rfl rfl
  have hclose : Passes double ['"'] Quotes.start := passes_quote rfl rfl
  have hinside := passes_flatMap (q := double) text fun c hc ↦
    passes_plain rfl (quote?_dull (List.all_eq_true.mp h c hc)) fun hbare ↦
      absurd hbare (by decide)
  rw [List.flatMap_singleton'] at hinside
  exact hopen.append (hinside.append hclose)

theorem balanced_part (part : Part) : Balanced part.written := by
  cases part with
  | text value => exact balanced_single value
  | ref r => exact balanced_double (ref_dull r)

theorem balanced_word (w : Word) : Balanced (Word.text w) :=
  (balanced_single []).append (passes_flatMap w fun part _ ↦ balanced_part part)

/-- A substitution of a balanced text is one region. -/
theorem substitutionAt_fields (h : Balanced text) (hhead : text.head? ≠ some '(') (rest : Str) :
    substitutionAt ('$' :: '(' :: text ++ ')' :: rest) =
      some ⟨text.length + 3, some text, false⟩ := by
  have hclosing : closingParen 0 Quotes.start ('(' :: (text ++ ')' :: rest)) =
      some (text.length + 1) := by
    show (closingParen 1 Quotes.start (text ++ ')' :: rest)).map (· + 1) = _
    rw [h 0]
    show some (0 + text.length + 1) = _
    rw [Nat.zero_add]
  have hinside : (text ++ ')' :: rest).head? ≠ some '(' := by
    rcases text with - | ⟨c, text⟩
    · exact fun hc ↦ absurd (Option.some.inj hc) (by decide)
    · exact hhead
  show ((closingParen 0 Quotes.start ('(' :: (text ++ ')' :: rest))).map fun n ↦ _) = _
  rw [hclosing, Option.map_some]
  refine (congrArg some (if_neg hinside)).trans ?_
  show some (Substitution.mk _ (some ((text ++ ')' :: rest).take (text.length + 1 - 1))) false) = _
  rw [Nat.add_sub_cancel, List.take_left]

/-! ### Reading the words of a command -/

section Reading

variable {host : Host} {below : Level}

/-- What is stepped over. -/
theorem readLoop_skip {inSingle inDouble : Bool} {r : Reader} :
    readLoop host below text.length inSingle inDouble r (text ++ rest) =
      readLoop host below 0 inSingle inDouble r rest := by
  induction text with
  | nil => rfl
  | cons c text ih => exact ih

theorem sliceable_skip {classes : Arith.CharClasses} {inSingle inDouble : Bool} :
    sliceable classes text.length inSingle inDouble (text ++ rest) =
      sliceable classes 0 inSingle inDouble rest := by
  induction text with
  | nil => rfl
  | cons c text ih => exact ih

theorem substitutionAt_of_ne (hdollar : c ≠ '$') (hbacktick : c ≠ '`') :
    substitutionAt (c :: rest) = none := by
  rw [substitutionAt.eq_def]
  split
  · rename_i heq
    exact absurd (List.cons.inj heq).1 hbacktick
  · rename_i heq
    exact absurd (List.cons.inj heq).1 hdollar
  · rfl

theorem readLoop_quote {inSingle inDouble : Bool} {r : Reader} (h : inDouble = false) :
    readLoop host below 0 inSingle inDouble r ('\'' :: rest) =
      readLoop host below 0 (!inSingle) inDouble r.quote rest := by
  subst h
  rw [readLoop.eq_def]
  simp [substitutionAt_of_ne]

theorem readLoop_double {inSingle inDouble : Bool} {r : Reader} (h : inSingle = false) :
    readLoop host below 0 inSingle inDouble r ('"' :: rest) =
      readLoop host below 0 inSingle (!inDouble) r.quote rest := by
  subst h
  rw [readLoop.eq_def]
  simp [substitutionAt_of_ne]

theorem readLoop_escape {r : Reader} : readLoop host below 0 false false r ('\\' :: c :: rest) =
    readLoop host below 0 false false (r.push c) rest := by
  rw [readLoop.eq_def]
  simp [substitutionAt_of_ne, Reader.escape]

theorem readLoop_single {r : Reader} (h : c ≠ '\'') :
    readLoop host below 0 true false r (c :: rest) =
      readLoop host below 0 true false (r.push c) rest := by
  rw [readLoop.eq_def]
  simp [h, Reader.plain]

theorem readLoop_quoted (value : Str) (r : Reader) (rest : Str) :
    readLoop host below 0 true false r (quoted value ++ '\'' :: rest) =
      readLoop host below 0 false false (r.verbatim value).quote rest := by
  induction value generalizing r with
  | nil => exact readLoop_quote rfl
  | cons c value ih =>
    by_cases hc : c = '\''
    · subst hc
      show readLoop host below 0 true false r
        ('\'' :: '\\' :: '\'' :: '\'' :: (quoted value ++ '\'' :: rest)) = _
      rw [readLoop_quote rfl, Bool.not_true, readLoop_escape, readLoop_quote rfl, Bool.not_false,
        ih]
      rfl
    · rw [quoted_cons hc, List.cons_append, readLoop_single hc, ih]
      rfl

theorem isName_takeWhile {name : Str} (h : isName name = true) (rest : Str) :
    (name ++ '}' :: rest).takeWhile (· ≠ '}') = name := by
  rw [List.takeWhile_append_of_pos]
  · exact List.append_nil name
  · intro c hc
    refine decide_eq_true ?_
    rintro rfl
    exact absurd (name_of_isName h _ hc) (by decide)

/-- Letters stand behind the digits. -/
theorem isDigit_of_isAlpha (h : c.isAlpha = true) : c.isDigit = false := by
  have hletter : (decide ('A'.val ≤ c.val ∧ c.val ≤ 'Z'.val) ||
      (decide ('a'.val ≤ c.val) && decide (c.val ≤ 'z'.val))) = true := h
  have hbehind : 65 ≤ c.val.toNat := by
    rcases Bool.or_eq_true_iff.mp hletter with hupper | hlower
    · exact UInt32.le_iff_toNat_le.mp (of_decide_eq_true hupper).1
    · have hle := UInt32.le_iff_toNat_le.mp (of_decide_eq_true (Bool.and_eq_true_iff.mp hlower).1)
      exact (show 65 ≤ 97 by decide).trans hle
  have hdigit : ¬ c.val ≤ '9'.val := fun hle ↦
    absurd (hbehind.trans (UInt32.le_iff_toNat_le.mp hle)) (by decide)
  show (decide ('0'.val ≤ c.val) && decide (c.val ≤ '9'.val)) = false
  rw [Bool.and_eq_false_iff]
  exact .inr (decide_eq_false hdigit)

theorem bracedParameter_name {name : Str} (h : isName name = true) :
    bracedParameter name = .var name := by
  rcases name with - | ⟨c, name⟩
  · cases h
  rw [isName, Bool.and_eq_true, Bool.or_eq_true, beq_iff_eq] at h
  have hhead : ∀ c', c'.isAlpha = false → c' ≠ '_' → c ≠ c' := by
    rintro c' halpha hscore rfl
    rcases h.1 with hc | hc
    · rw [halpha] at hc
      cases hc
    · exact hscore hc
  have hne : ∀ c', c'.isAlpha = false → c' ≠ '_' → c :: name ≠ [c'] := fun c' halpha hscore heq ↦
    hhead c' halpha hscore (List.cons.inj heq).1
  have hdigit : c.isDigit = false := by
    rcases h.1 with hc | rfl
    · exact isDigit_of_isAlpha hc
    · decide
  rw [bracedParameter, if_neg (hne _ (by decide) (by decide)),
    if_neg (hne _ (by decide) (by decide)), if_neg (hne _ (by decide) (by decide)),
    if_neg (hne _ (by decide) (by decide)), if_neg, if_neg]
  · rintro ⟨-, hall⟩
    rw [List.all_cons, hdigit] at hall
    cases hall
  · rintro (heq | heq)
    · exact hne _ (by decide) (by decide) heq
    · exact hne _ (by decide) (by decide) heq

/-- The parameter behind the dollar of a reference. -/
theorem parameterAt_ref (classes : Arith.CharClasses) (ref : Ref) (rest : Str) :
    parameterAt classes (ref.text.tail ++ rest) = some (ref.parameter, ref.text.tail.length) := by
  rcases ref with - | - | ⟨name, hname⟩
  · rfl
  · rfl
  · show parameterAt classes ('{' :: (name ++ ['}'] ++ rest)) = _
    have htake := isName_takeWhile hname rest
    rw [List.append_assoc]
    show some (bracedParameter ((name ++ '}' :: rest).takeWhile (· ≠ '}')),
      ((name ++ '}' :: rest).takeWhile (· ≠ '}')).length + 2) = _
    rw [htake, bracedParameter_name hname]
    refine congrArg some (congrArg (Prod.mk _) ?_)
    show name.length + 2 = (name ++ ['}']).length + 1
    rw [List.length_append, List.length_singleton]

theorem text_ref (ref : Ref) : ref.text = '$' :: ref.text.tail := by
  cases ref <;> rfl

theorem substitutionAt_ref (ref : Ref) (rest : Str) :
    substitutionAt (ref.text ++ '"' :: rest) = none := by
  have hskip : skipAt double (ref.text ++ '"' :: rest) = none := by
    have hdull := ref_dull ref
    rw [text_ref, List.all_cons, Bool.and_eq_true] at hdull
    rw [text_ref, List.cons_append]
    exact skipAt_dull hdull.1 (head_dull hdull.2)
  exact Option.map_eq_none_iff.mp hskip

theorem readLoop_ref {r : Reader} (ref : Ref) (rest : Str) :
    readLoop host below 0 false true r (ref.text ++ '"' :: rest) =
      (get >>= fun s ↦
        readLoop host below 0 false false (r.verbatim (s.value ref.parameter)).quote rest) := by
  have hregion := substitutionAt_ref ref rest
  have hparameter := parameterAt_ref host.classes ref ('"' :: rest)
  rw [text_ref, List.cons_append] at hregion
  rw [text_ref, List.cons_append, readLoop.eq_def]
  simp only [hregion, hparameter, Char.reduceEq, Bool.not_false, Bool.not_true, Bool.false_eq_true,
    and_true, false_and, if_false, if_true, ite_self, readLoop_skip]
  exact congrArg _ (funext fun s ↦ readLoop_double rfl)

/-! ### The same steps for the check of the regions -/

section Sliceable

variable {classes : Arith.CharClasses}

theorem sliceable_quote {inSingle inDouble : Bool} (h : inDouble = false) :
    sliceable classes 0 inSingle inDouble ('\'' :: rest) =
      sliceable classes 0 (!inSingle) inDouble rest := by
  subst h
  rw [sliceable.eq_def]
  simp [substitutionAt_of_ne]

theorem sliceable_double {inSingle inDouble : Bool} (h : inSingle = false) :
    sliceable classes 0 inSingle inDouble ('"' :: rest) =
      sliceable classes 0 inSingle (!inDouble) rest := by
  subst h
  rw [sliceable.eq_def]
  simp [substitutionAt_of_ne]

theorem sliceable_escape : sliceable classes 0 false false ('\\' :: c :: rest) =
    sliceable classes 0 false false rest := by
  rw [sliceable.eq_def]
  simp [substitutionAt_of_ne]

theorem sliceable_single (h : c ≠ '\'') : sliceable classes 0 true false (c :: rest) =
    sliceable classes 0 true false rest := by
  rw [sliceable.eq_def]
  simp [h]

theorem sliceable_quoted (value : Str) (rest : Str) :
    sliceable classes 0 true false (quoted value ++ '\'' :: rest) =
      sliceable classes 0 false false rest := by
  induction value with
  | nil => exact sliceable_quote rfl
  | cons c value ih =>
    by_cases hc : c = '\''
    · subst hc
      show sliceable classes 0 true false
        ('\'' :: '\\' :: '\'' :: '\'' :: (quoted value ++ '\'' :: rest)) = _
      rw [sliceable_quote rfl, Bool.not_true, sliceable_escape, sliceable_quote rfl,
        Bool.not_false, ih]
    · rw [quoted_cons hc, List.cons_append, sliceable_single hc, ih]

theorem sliceable_ref (ref : Ref) (rest : Str) :
    sliceable classes 0 false true (ref.text ++ '"' :: rest) =
      sliceable classes 0 false false rest := by
  have hregion := substitutionAt_ref ref rest
  have hparameter := parameterAt_ref classes ref ('"' :: rest)
  rw [text_ref, List.cons_append] at hregion
  rw [text_ref, List.cons_append, sliceable.eq_def]
  simp only [hregion, hparameter, Char.reduceEq, Bool.not_false, Bool.not_true, and_true,
    if_false, if_true, sliceable_skip]
  exact sliceable_double rfl

theorem sliceable_part (part : Part) (rest : Str) :
    sliceable classes 0 false false (part.written ++ rest) =
      sliceable classes 0 false false rest := by
  cases part with
  | text value =>
    rw [Part.written, List.cons_append, List.cons_append, List.append_assoc, sliceable_quote rfl]
    exact sliceable_quoted value rest
  | ref r =>
    rw [Part.written, List.cons_append, List.cons_append, List.append_assoc, sliceable_double rfl]
    exact sliceable_ref r rest

theorem sliceable_word (w : Word) (rest : Str) :
    sliceable classes 0 false false (Word.text w ++ rest) =
      sliceable classes 0 false false rest := by
  have hparts : sliceable classes 0 false false (w.flatMap Part.written ++ rest) =
      sliceable classes 0 false false rest := by
    induction w with
    | nil => rfl
    | cons part w ih => rw [List.flatMap_cons, List.append_assoc, sliceable_part, ih]
  rw [Word.text, List.cons_append, List.cons_append, sliceable_quote rfl, sliceable_quote rfl]
  exact hparts

end Sliceable

/-! ### What the reader makes of a command's arguments -/

/-- There is no text of a word that is not under way. -/
def Tidy (r : Reader) : Prop := r.hasToken = false → r.cur = []

theorem blank_eq {r : Reader} (h : Tidy r) : r.blank = ⟨r.finish, [], false⟩ := by
  rw [Reader.blank, Reader.finish]
  rcases hr : r.hasToken with - | -
  · rcases r with ⟨words, cur, hasToken⟩
    obtain rfl : hasToken = false := hr
    obtain rfl : cur = [] := h rfl
    rfl
  · rfl

theorem verbatim_eq {r : Reader} (h : r.hasToken = true) (value : Str) :
    r.verbatim value = { r with cur := r.cur ++ value } := by
  induction value generalizing r with
  | nil => rw [List.append_nil]; rfl
  | cons c value ih =>
    show (r.push c).verbatim value = _
    rw [ih rfl, Reader.push, List.append_assoc]
    rcases r with ⟨words, cur, hasToken⟩
    obtain rfl : hasToken = true := h
    rfl

theorem tidy_split {r : Reader} (h : Tidy r) (value : Str) : Tidy (r.split value) := by
  induction value generalizing r with
  | nil => exact h
  | cons c value ih =>
    refine ih ?_
    show Tidy (if Text.isWhitespace c = true then r.blank else r.push c)
    split
    · rw [blank_eq h]
      exact fun _ ↦ rfl
    · exact fun hpush ↦ absurd (show true = false from hpush) (by decide)

/-- Splitting a value outside of quotes. -/
theorem finish_split {r : Reader} (h : r.hasToken = true ↔ r.cur ≠ []) (value : Str) :
    (r.split value).finish = r.words ++
      ((value.splitOnP Text.isWhitespace).modifyHead (r.cur ++ ·)).filter (· ≠ []) := by
  induction value generalizing r with
  | nil =>
    show r.finish = _
    rw [Reader.finish, List.splitOnP_nil, List.modifyHead_cons, List.append_nil]
    by_cases hcur : r.cur = []
    · rw [if_neg fun hr ↦ h.mp hr hcur, hcur]
      exact (List.append_nil _).symm
    · rw [if_pos (h.mpr hcur), List.filter_cons_of_pos (by simpa using hcur)]
      rfl
  | cons c value ih =>
    have htidy : Tidy r := fun hr ↦ by
      by_contra hcur
      rw [h.mpr hcur] at hr
      cases hr
    rw [List.splitOnP_cons_eq_if_modifyHead]
    by_cases hc : Text.isWhitespace c = true
    · have hsplit : r.split (c :: value) = r.blank.split value := by
        show Reader.split (if Text.isWhitespace c = true then _ else _) value = _
        rw [if_pos hc]
      have hpieces : ∀ pieces : List Str, pieces.modifyHead ([] ++ ·) = pieces := fun pieces ↦ by
        cases pieces <;> rfl
      rw [hsplit, blank_eq htidy, ih (by simp), if_pos hc, hpieces, List.modifyHead_cons,
        List.append_nil, Reader.finish]
      by_cases hcur : r.cur = []
      · rw [if_neg fun hr ↦ h.mp hr hcur, hcur, List.filter_cons_of_neg (by simp)]
      · rw [if_pos (h.mpr hcur), List.filter_cons_of_pos (by simpa using hcur), List.append_assoc]
        rfl
    · have hsplit : r.split (c :: value) = (r.push c).split value := by
        show Reader.split (if Text.isWhitespace c = true then _ else _) value = _
        rw [if_neg hc]
      rw [hsplit, ih (by simp [Reader.push]), if_neg hc]
      rcases value.splitOnP Text.isWhitespace with - | ⟨piece, pieces⟩
      · rfl
      · rw [List.modifyHead_cons, List.modifyHead_cons, List.modifyHead_cons, Reader.push,
          List.append_assoc]
        rfl

theorem finish_fields (words : List Str) (value : Str) :
    ((Reader.mk words [] false).split value).finish = words ++ Text.splitWhitespace value := by
  rw [finish_split (by simp), Text.splitWhitespace]
  rcases value.splitOnP Text.isWhitespace with - | ⟨piece, pieces⟩
  · rfl
  · rfl

theorem readLoop_part {r : Reader} (part : Part) (rest : Str) :
    readLoop host below 0 false false r (part.written ++ rest) = (part.value >>= fun v ↦
      readLoop host below 0 false false (r.quote.verbatim v).quote rest) := by
  cases part with
  | text value =>
    rw [Part.written, List.cons_append, List.cons_append, List.append_assoc, readLoop_quote rfl]
    show _ = (pure value >>= fun v ↦ _)
    rw [pure_bind]
    exact readLoop_quoted value r.quote rest
  | ref ref =>
    rw [Part.written, List.cons_append, List.cons_append, List.append_assoc, readLoop_double rfl]
    refine (readLoop_ref ref rest).trans ?_
    rw [Part.value, bind_assoc]
    exact congrArg _ (funext fun s ↦ (pure_bind _ _).symm)

theorem readLoop_word (words : List Str) (w : Word) (rest : Str) :
    readLoop host below 0 false false ⟨words, [], false⟩ (Word.text w ++ rest) =
      (Word.value w >>= fun v ↦ readLoop host below 0 false false ⟨words, v, true⟩ rest) := by
  have hparts : ∀ cur, readLoop host below 0 false false ⟨words, cur, true⟩
      (w.flatMap Part.written ++ rest) = (Word.value w >>= fun v ↦
        readLoop host below 0 false false ⟨words, cur ++ v, true⟩ rest) := by
    induction w with
    | nil =>
      intro cur
      rw [Word.value, pure_bind, List.append_nil]
      rfl
    | cons part w ih =>
      intro cur
      rw [List.flatMap_cons, List.append_assoc, readLoop_part, Word.value, bind_assoc]
      refine congrArg _ (funext fun v ↦ ?_)
      have hquote : ((Reader.mk words cur true).quote.verbatim v).quote =
          ⟨words, cur ++ v, true⟩ := by
        rw [verbatim_eq rfl]
        rfl
      rw [hquote, ih, bind_assoc]
      refine congrArg _ (funext fun v' ↦ ?_)
      rw [pure_bind, List.append_assoc]
  rw [Word.text, List.cons_append, List.cons_append, readLoop_quote rfl, readLoop_quote rfl]
  exact hparts []

theorem readLoop_blank {r : Reader} : readLoop host below 0 false false r (' ' :: rest) =
    readLoop host below 0 false false r.blank rest := by
  rw [readLoop.eq_def]
  simp [substitutionAt_of_ne, Reader.plain, Text.isWhitespace]

theorem readLoop_blanks {r : Reader} (h : Tidy r) (n : ℕ) :
    readLoop host below 0 false false r (List.replicate n ' ') = pure r.finish := by
  induction n generalizing r with
  | zero => rfl
  | succ n ih =>
    rw [List.replicate_succ, readLoop_blank, blank_eq h, ih fun _ ↦ rfl]
    rfl

end Reading

end Syntax

end Mimic
