import Mimic.Shell.Interp

/-!
# Reading words

`parse_line` splices expanded values into the line and splits the text that results. This is
compared with a reader that goes over the line once and never looks at a value again (`readWords`).
In double quotes a value is put into the word as it is, outside of quotes it is split at whitespace,
and no character of it changes the quoting of what follows.

The escapes that `push_value` puts in front of the characters of a value are undone by `tokenize` in
each of the two contexts (`Reader.thenTokens_pushValue`). The one way in which the two differ is
that `parse_line` may not come to an end: an arithmetic region whose last byte in front of the
parenthesis is inside of a character cannot be sliced.
-/

namespace Mimic

namespace Interp

open Mimic.Parser Outcomes

/-! ### The reader -/

/-- What was read: the words that are complete, and the one under way. -/
structure Reader where
  words : List Str
  cur : Str
  /-- Whether there is a word under way, be it an empty one. -/
  hasToken : Bool

namespace Reader

def start : Reader := ⟨[], [], false⟩

/-- A character of a word. -/
def push (r : Reader) (c : Char) : Reader := { r with cur := r.cur ++ [c], hasToken := true }

/-- A quote, which makes a word of what it encloses. -/
def quote (r : Reader) : Reader := { r with hasToken := true }

/-- Whitespace, which ends a word. -/
def blank (r : Reader) : Reader := if r.hasToken then ⟨r.words ++ [r.cur], [], false⟩ else r

/-- The words at the end of the line. -/
def finish (r : Reader) : List Str := if r.hasToken then r.words ++ [r.cur] else r.words

/-- A value in double quotes. -/
def verbatim (r : Reader) (value : Str) : Reader := value.foldl push r

/-- A value outside of quotes. -/
def split (r : Reader) (value : Str) : Reader :=
  value.foldl (fun r c ↦ if Text.isWhitespace c then r.blank else r.push c) r

/-- The value of an expansion. -/
def value (r : Reader) (inDouble : Bool) (value : Str) : Reader :=
  if inDouble then r.verbatim value else r.split value

/-- A backslash and the character behind it. In double quotes it is a plain character, except in
front of the ones it can escape there. -/
def escape (r : Reader) (inDouble : Bool) (next : Char) : Reader :=
  if inDouble && !isEscapable next then (r.push '\\').push next else r.push next

/-- A character without a meaning of its own. -/
def plain (r : Reader) (quoted : Bool) (c : Char) : Reader :=
  if Text.isWhitespace c && !quoted then r.blank else r.push c

end Reader

/-- The text of a region, up to the last character in front of the parenthesis for arithmetic. -/
def regionText (text : Str) (region : Substitution) : Str :=
  region.body.getD ((text.drop 3).take (region.length - 5))

section Reference

variable (host : Host) (below : Level)

/-- The value of a region at the front of a text. -/
def referenceValue (text : Str) (region : Substitution) : Run Str :=
  if region.arithmetic then arithmetic host below (regionText text region)
  else substitute below (regionText text region)

/-- Read words off the rest of a line. -/
def readLoop (skip : ℕ) (inSingle inDouble : Bool) (r : Reader) : Str → Run (List Str)
  | [] => return r.finish
  | c :: rest =>
    match skip with
    | skip + 1 => readLoop skip inSingle inDouble r rest
    | 0 =>
      match if inSingle then none else substitutionAt (c :: rest) with
      | some region => do
        let value ← referenceValue host below (c :: rest) region
        readLoop (region.length - 1) inSingle inDouble (r.value inDouble value) rest
      | none =>
        if c = '\\' ∧ !inSingle then
          match rest with
          | [] => return r.finish
          | next :: rest' => readLoop 0 inSingle inDouble (r.escape inDouble next) rest'
        else if c = '\'' ∧ !inDouble then readLoop 0 (!inSingle) inDouble r.quote rest
        else if c = '"' ∧ !inSingle then readLoop 0 inSingle (!inDouble) r.quote rest
        else
          match if c = '$' ∧ !inSingle then parameterAt host.classes rest else none with
          | some (parameter, n) => do
            let s ← get
            readLoop n inSingle inDouble (r.value inDouble (s.value parameter)) rest
          | none => readLoop 0 inSingle inDouble (r.plain (inSingle || inDouble) c) rest

/-- Read the words of a line in one pass. -/
def readWords (line : Str) : Run (List Str) := readLoop host below 0 false false .start line

end Reference

/-- Whether the body of every region that is expanded can be sliced out of the line. -/
def sliceable (classes : Arith.CharClasses) (skip : ℕ) (inSingle inDouble : Bool) : Str → Bool
  | [] => true
  | c :: rest =>
    match skip with
    | skip + 1 => sliceable classes skip inSingle inDouble rest
    | 0 =>
      match if inSingle then none else substitutionAt (c :: rest) with
      | some region =>
        region.body.isSome && sliceable classes (region.length - 1) inSingle inDouble rest
      | none =>
        if c = '\\' ∧ !inSingle then
          match rest with
          | [] => true
          | _ :: rest' => sliceable classes 0 inSingle inDouble rest'
        else if c = '\'' ∧ !inDouble then sliceable classes 0 (!inSingle) inDouble rest
        else if c = '"' ∧ !inSingle then sliceable classes 0 inSingle (!inDouble) rest
        else
          match if c = '$' ∧ !inSingle then parameterAt classes rest else none with
          | some (_, n) => sliceable classes n inSingle inDouble rest
          | none => sliceable classes 0 inSingle inDouble rest

/-! ### The tokenizer, step by step -/

namespace Reader

/-- The words of a text behind what was read. -/
def thenTokens (r : Reader) (inSingle inDouble : Bool) (text : Str) : List Str :=
  r.words ++ tokenizeLoop r.cur r.hasToken inSingle inDouble text

variable {r : Reader} {inSingle inDouble : Bool} {c next : Char} {text : Str}

@[simp] theorem thenTokens_nil : r.thenTokens inSingle inDouble [] = r.finish := by
  rw [thenTokens, tokenizeLoop, finish]
  cases r.hasToken <;> simp

theorem thenTokens_single (h : inDouble = false) :
    r.thenTokens inSingle inDouble ('\'' :: text) =
      r.quote.thenTokens (!inSingle) inDouble text := by
  rw [thenTokens, tokenizeLoop.eq_def]
  simp [h, thenTokens, quote]

theorem thenTokens_double (h : inSingle = false) :
    r.thenTokens inSingle inDouble ('"' :: text) =
      r.quote.thenTokens inSingle (!inDouble) text := by
  rw [thenTokens, tokenizeLoop.eq_def]
  simp [h, thenTokens, quote]

/-- A character that is no quoting. -/
theorem thenTokens_plain (hs : ¬ (c = '\'' ∧ !inDouble)) (hd : ¬ (c = '"' ∧ !inSingle))
    (hb : ¬ (c = '\\' ∧ !inSingle)) : r.thenTokens inSingle inDouble (c :: text) =
      (r.plain (inSingle || inDouble) c).thenTokens inSingle inDouble text := by
  rw [thenTokens, tokenizeLoop.eq_def]
  simp only
  rw [if_neg hs, if_neg hd, if_neg hb]
  by_cases hw : Text.isWhitespace c ∧ !inSingle ∧ !inDouble
  · have hplain : r.plain (inSingle || inDouble) c = r.blank := by simp_all [plain]
    rw [if_pos hw, hplain, blank]
    split
    · simp [thenTokens]
    · rename_i htoken
      rw [thenTokens, Bool.eq_false_of_not_eq_true htoken]
  · have hplain : r.plain (inSingle || inDouble) c = r.push c := by
      rw [plain, if_neg]
      simpa using hw
    rw [if_neg hw, hplain]
    rfl

/-- A backslash outside of single quotes. -/
theorem thenTokens_escape (h : inSingle = false) :
    r.thenTokens inSingle inDouble ('\\' :: next :: text) =
      (r.escape inDouble next).thenTokens inSingle inDouble text := by
  subst h
  rw [thenTokens, tokenizeLoop.eq_def]
  cases hesc : !inDouble || isEscapable next
  · -- in double quotes, and the next character is then a plain one
    obtain ⟨rfl, hnext⟩ : inDouble = true ∧ isEscapable next = false := by simpa using hesc
    have hplain : (r.push '\\').thenTokens false true (next :: text) =
        ((r.push '\\').plain true next).thenTokens false true text :=
      thenTokens_plain (by simp) (by rintro ⟨rfl, -⟩; cases hnext) (by rintro ⟨rfl, -⟩; cases hnext)
    have hpush : (r.push '\\').plain true next = (r.push '\\').push next := by simp [plain]
    have hescape : r.escape true next = (r.push '\\').push next := by simp [escape, hnext]
    rw [hescape, ← hpush, ← hplain]
    simp [hnext, thenTokens, push]
  · have hescape : r.escape inDouble next = r.push next := by
      rw [escape, if_neg]
      cases inDouble <;> simp_all
    rw [hescape]
    simp [hesc, thenTokens, push]

/-- **Escaped values.** The tokenizer undoes the escapes of a value, and splits it outside of double
quotes. -/
theorem thenTokens_pushValue (value : Str) :
    r.thenTokens false inDouble (pushValue inDouble value ++ text) =
      (r.value inDouble value).thenTokens false inDouble text := by
  induction value generalizing r with
  | nil => cases inDouble <;> rfl
  | cons c value ih =>
    have hvalue : r.value inDouble (c :: value) = (r.plain inDouble c).value inDouble value := by
      cases inDouble <;> simp [Reader.value, verbatim, split, plain]
    rw [hvalue, ← ih, pushValue]
    split
    · rename_i hc
      have hescape : r.escape inDouble c = r.plain inDouble c := by
        obtain rfl | rfl | ⟨rfl, hdouble⟩ := hc
        · cases inDouble <;> rfl
        · cases inDouble <;> rfl
        · obtain rfl : inDouble = false := by simpa using hdouble
          rfl
      rw [List.cons_append, List.cons_append, thenTokens_escape rfl, hescape]
    · rename_i hc
      simp only [not_or] at hc
      rw [List.cons_append, thenTokens_plain hc.2.2 (fun h ↦ hc.2.1 h.1) (fun h ↦ hc.1 h.1),
        Bool.false_or]

end Reader

/-! ### The two readings -/

section Readings

variable {host : Host} {below : Level}

theorem referenceValue_of_isSome {text : Str} {region : Substitution} (h : region.body.isSome) :
    referenceValue host below text region = regionValue host below region := by
  obtain ⟨body, hbody⟩ := Option.isSome_iff_exists.mp h
  simp [referenceValue, regionValue, regionText, hbody]

/-- A text in front of what comes out of a program. -/
theorem map_bind_pure (f : Str → List Str) (g : Str → Str) (m : Run Str) :
    (f <$> do let out ← m; pure (g out)) = (fun out ↦ f (g out)) <$> m := by
  rw [map_bind, map_eq_pure_bind]
  simp only [map_pure]

/-- Expanding and then splitting is reading. The quotes that the tokenizer is in are those of the
expansion at every point of the line. -/
theorem expandLoop_reads (skip : ℕ) (inSingle inDouble : Bool) (text : Str) (r : Reader)
    (hquotes : (inSingle && inDouble) = false)
    (hslice : sliceable host.classes skip inSingle inDouble text) :
    r.thenTokens inSingle inDouble <$> expandLoop host below .words skip inSingle inDouble text =
      readLoop host below skip inSingle inDouble r text := by
  fun_induction expandLoop host below .words skip inSingle inDouble text generalizing r
  case case1 => simp [readLoop]
  case case2 ih =>
    rw [sliceable] at hslice
    rw [readLoop]
    exact ih r hquotes hslice
  case case3 inSingle inDouble c rest region hregion ih =>
    rw [sliceable.eq_def] at hslice
    simp only [hregion, Bool.and_eq_true] at hslice
    obtain rfl : inSingle = false := by
      cases inSingle
      · rfl
      · cases hregion
    rw [readLoop.eq_def]
    simp only [hregion]
    rw [referenceValue_of_isSome hslice.1, map_bind]
    refine congrArg _ (funext fun value ↦ ?_)
    rw [map_bind_pure, ← ih _ rfl hslice.2]
    refine congrArg (· <$> _) (funext fun out ↦ ?_)
    exact Reader.thenTokens_pushValue value
  case case4 inSingle inDouble c hc hregion =>
    obtain ⟨rfl, hsingle⟩ := hc
    rw [readLoop.eq_def]
    simp only [hregion]
    simp_all [Reader.thenTokens, tokenizeLoop, Reader.finish]
    split <;> simp
  case case5 inSingle inDouble c hc next rest hwords hregion ih =>
    obtain ⟨rfl, hsingle⟩ := hc
    obtain rfl : inSingle = false := by simpa using hsingle
    rw [sliceable.eq_def] at hslice
    rw [readLoop.eq_def]
    simp only [hregion, Bool.not_false, and_self, if_true] at hslice ⊢
    rw [map_bind_pure, ← ih _ rfl hslice]
    exact congrArg (· <$> _) (funext fun out ↦ Reader.thenTokens_escape rfl)
  case case6 hmode _ _ _ => exact absurd rfl hmode
  case case7 hmode _ _ _ => exact absurd rfl hmode
  case case8 inSingle inDouble c rest hregion hesc hc ih =>
    rw [sliceable.eq_def] at hslice
    rw [readLoop.eq_def]
    simp only [hregion] at hslice ⊢
    rw [if_neg hesc, if_pos ⟨hc.1, hc.2.2⟩] at hslice ⊢
    obtain ⟨rfl, -, hdouble⟩ := hc
    obtain rfl : inDouble = false := by simpa using hdouble
    rw [map_bind_pure, ← ih _ (Bool.and_false _) hslice]
    exact congrArg (· <$> _) (funext fun out ↦ Reader.thenTokens_single rfl)
  case case9 inSingle inDouble c rest hregion hesc hs hc ih =>
    rw [sliceable.eq_def] at hslice
    rw [readLoop.eq_def]
    simp only [hregion] at hslice ⊢
    rw [if_neg hesc, if_neg fun h ↦ hs ⟨h.1, rfl, h.2⟩, if_pos ⟨hc.1, hc.2.2⟩] at hslice ⊢
    obtain ⟨rfl, -, hsingle⟩ := hc
    obtain rfl : inSingle = false := by simpa using hsingle
    rw [map_bind_pure, ← ih _ (Bool.false_and _) hslice]
    exact congrArg (· <$> _) (funext fun out ↦ Reader.thenTokens_double rfl)
  case case10 inSingle inDouble c rest hregion hesc hs hd parameter n hparameter ih =>
    rw [sliceable.eq_def] at hslice
    rw [readLoop.eq_def]
    simp only [hregion] at hslice ⊢
    rw [if_neg hesc, if_neg fun h ↦ hs ⟨h.1, rfl, h.2⟩, if_neg fun h ↦ hd ⟨h.1, rfl, h.2⟩]
      at hslice ⊢
    simp only [hparameter] at hslice ⊢
    obtain rfl : inSingle = false := by
      cases inSingle
      · rfl
      · simp at hparameter
    rw [map_bind]
    refine congrArg _ (funext fun s ↦ ?_)
    rw [map_bind_pure, ← ih _ (Bool.false_and _) hslice]
    exact congrArg (· <$> _) (funext fun out ↦ Reader.thenTokens_pushValue _)
  case case11 inSingle inDouble c rest hregion hesc hs hd hparameter ih =>
    rw [sliceable.eq_def] at hslice
    rw [readLoop.eq_def]
    simp only [hregion] at hslice ⊢
    rw [if_neg hesc, if_neg fun h ↦ hs ⟨h.1, rfl, h.2⟩, if_neg fun h ↦ hd ⟨h.1, rfl, h.2⟩]
      at hslice ⊢
    simp only [hparameter] at hslice ⊢
    rw [map_bind_pure, ← ih _ hquotes hslice]
    exact congrArg (· <$> _) (funext fun out ↦ Reader.thenTokens_plain (fun h ↦ hs ⟨h.1, rfl, h.2⟩)
      (fun h ↦ hd ⟨h.1, rfl, h.2⟩) hesc)

/-! ### Regions that cannot be sliced -/

/-- The expansion does not get past a region that cannot be sliced. -/
theorem expandLoop_stops (skip : ℕ) (inSingle inDouble : Bool) (text : Str) (s : Shell)
    (hslice : sliceable host.classes skip inSingle inDouble text = false) :
    ∃ e t, expandLoop host below .words skip inSingle inDouble text s = (.error e, t) := by
  have hbind : ∀ (m : Run Str) (f : Str → Run Str) (s : Shell), (∃ e t, m s = (.error e, t)) →
      ∃ e t, (m >>= f) s = (.error e, t) := fun m f s ⟨e, t, hm⟩ ↦ ⟨e, t, by rw [bind_apply, hm]⟩
  fun_induction expandLoop host below .words skip inSingle inDouble text generalizing s
  case case1 => cases hslice
  case case2 ih =>
    rw [sliceable] at hslice
    exact ih s hslice
  case case3 inSingle inDouble c rest region hregion ih =>
    rw [sliceable.eq_def] at hslice
    simp only [hregion] at hslice
    cases hbody : region.body with
    | none =>
      refine hbind _ _ s ⟨.panic, s, ?_⟩
      rw [regionValue, hbody]
      rfl
    | some body =>
      rw [hbody, Option.isSome_some, Bool.true_and] at hslice
      rcases hvalue : regionValue host below region s with ⟨e | value, t⟩
      · exact hbind _ _ s ⟨e, t, hvalue⟩
      · rw [bind_apply, hvalue]
        exact hbind _ _ t (ih t hslice)
  case case4 inSingle inDouble c hc hregion =>
    rw [sliceable.eq_def] at hslice
    simp only [hregion] at hslice
    rw [if_pos hc] at hslice
    cases hslice
  case case5 inSingle inDouble c hc next rest hwords hregion ih =>
    rw [sliceable.eq_def] at hslice
    simp only [hregion] at hslice
    rw [if_pos hc] at hslice
    exact hbind _ _ s (ih s hslice)
  case case6 hmode _ _ _ => exact absurd rfl hmode
  case case7 hmode _ _ _ => exact absurd rfl hmode
  case case8 inSingle inDouble c rest hregion hesc hc ih =>
    rw [sliceable.eq_def] at hslice
    simp only [hregion] at hslice
    rw [if_neg hesc, if_pos ⟨hc.1, hc.2.2⟩] at hslice
    exact hbind _ _ s (ih s hslice)
  case case9 inSingle inDouble c rest hregion hesc hq hc ih =>
    rw [sliceable.eq_def] at hslice
    simp only [hregion] at hslice
    rw [if_neg hesc, if_neg fun h ↦ hq ⟨h.1, rfl, h.2⟩, if_pos ⟨hc.1, hc.2.2⟩] at hslice
    exact hbind _ _ s (ih s hslice)
  case case10 inSingle inDouble c rest hregion hesc hq hd parameter n hparameter ih =>
    rw [sliceable.eq_def] at hslice
    simp only [hregion] at hslice
    rw [if_neg hesc, if_neg fun h ↦ hq ⟨h.1, rfl, h.2⟩, if_neg fun h ↦ hd ⟨h.1, rfl, h.2⟩] at hslice
    simp only [hparameter] at hslice
    exact hbind _ _ s (ih s hslice)
  case case11 inSingle inDouble c rest hregion hesc hq hd hparameter ih =>
    rw [sliceable.eq_def] at hslice
    simp only [hregion] at hslice
    rw [if_neg hesc, if_neg fun h ↦ hq ⟨h.1, rfl, h.2⟩, if_neg fun h ↦ hd ⟨h.1, rfl, h.2⟩] at hslice
    simp only [hparameter] at hslice
    exact hbind _ _ s (ih s hslice)

end Readings

/-! ### Words -/

/-- Expanding a line and splitting it. -/
theorem parseLine_eq (host : Host) (below : Level) (line : Str) :
    parseLine host below line = Reader.start.thenTokens false false <$>
      expandLoop host below .words 0 false false line := by
  rw [parseLine, map_eq_pure_bind]
  rfl

/-- **Words.** Where the substitutions of a line return, whatever text it is, `parse_line` gives the
words of the reader exactly if every region that the line expands can be sliced out of it. -/
theorem parseLine_reads_iff {host : Host} {below : Level} {line : Str} {s t : Shell}
    {words : List Str} (h : readWords host below line s = (.ok words, t)) :
    parseLine host below line s = (.ok words, t) ↔
      sliceable host.classes 0 false false line = true := by
  constructor
  · intro hparse
    by_contra hslice
    rw [Bool.not_eq_true] at hslice
    obtain ⟨e, u, hstop⟩ : ∃ e t,
        expandLoop host below .words 0 false false line s = (.error e, t) :=
      expandLoop_stops 0 false false line s hslice
    rw [parseLine_eq, map_eq_pure_bind, bind_apply, hstop] at hparse
    cases hparse
  · intro hslice
    rw [parseLine_eq, expandLoop_reads 0 false false line .start rfl hslice]
    exact h

/-- A session in which `V` is `b' "`. -/
def quoting : Shell := { Shell.bare with env := (∅ : Env).insert ['V'] "b' \"".toList }

theorem parseLine_reads_quoting :
    (parseLine bareHost (levels bareHost) "a\"$V\" $V".toList quoting).1 =
      .ok ["ab' \"".toList, "b'".toList, ['"']] := by
  have hok : (readWords bareHost (levels bareHost) "a\"$V\" $V".toList quoting).1 =
    .ok ["ab' \"".toList, "b'".toList, ['"']] := by decide +kernel
  rcases hread : readWords bareHost (levels bareHost) "a\"$V\" $V".toList quoting with ⟨r, t⟩
  rw [hread] at hok
  obtain rfl : r = _ := hok
  exact congrArg Prod.fst ((parseLine_reads_iff hread).mpr (by decide +kernel))

/-- An arithmetic region that ends behind a character of two bytes. -/
theorem parseLine_panics :
    (parseLine bareHost (levels bareHost) "echo $((1)é)".toList Shell.bare).1 = .error .panic ∧
      (readWords bareHost (levels bareHost) "echo $((1)é)".toList Shell.bare).1 =
        .ok ["echo".toList, ['0']] := by decide +kernel

/-! ### Plain lines -/

/-- Whether a character stands for itself in a line. -/
def isPlain (c : Char) : Bool :=
  c != '$' && c != '`' && c != '\\' && c != '\'' && c != '"'

theorem substitutionAt_plain {c : Char} (hc : isPlain c) (rest : Str) :
    substitutionAt (c :: rest) = none := by
  rw [substitutionAt.eq_def]
  split
  · rename_i h
    cases h
    cases hc
  · rename_i h
    cases h
    cases hc
  · rfl

theorem expandLoop_plain (host : Host) (below : Level) {text : Str} (h : text.all isPlain)
    (s : Shell) : expandLoop host below .words 0 false false text s = (.ok text, s) := by
  induction text with
  | nil => rfl
  | cons c rest ih =>
    rw [List.all_cons, Bool.and_eq_true] at h
    have hc := h.1
    simp only [isPlain, Bool.and_eq_true, bne_iff_ne, ne_eq] at hc
    obtain ⟨⟨⟨⟨hdollar, -⟩, hesc⟩, hsingle⟩, hdouble⟩ := hc
    rw [expandLoop.eq_def]
    simp only [substitutionAt_plain h.1, Bool.false_eq_true, if_false, hesc, hsingle, hdouble,
      hdollar, false_and]
    rw [bind_apply, ih h.2]
    rfl

/-- A plain line is only split. -/
theorem parseLine_plain (host : Host) (below : Level) {line : Str} (h : line.all isPlain)
    (s : Shell) : parseLine host below line s = (.ok (tokenize line), s) := by
  rw [parseLine, bind_apply, expandWith, expandLoop_plain host below h]
  rfl

/-- A plain text is only split. -/
theorem ensures_parseLine {stops : Stop → Shell → Prop} {host : Host} {below : Level} {line : Str}
    {words : List Str} (h : line.all isPlain) (hwords : tokenize line = words)
    (Q : List Str → Shell → Prop) (s : Shell) :
    ensures stops (parseLine host below line) Q s ↔ Q words s := by
  rw [ensures, parseLine_plain host below h, hwords]

/-- Without redirects both streams go to the client. -/
theorem routeOutput_empty (now : Timestamp) (vfs : Vfs) (result : CommandResult) :
    routeOutput now vfs result .empty = (vfs, result) := by
  simp [routeOutput, divert, Sinks.empty]

end Interp

end Mimic
