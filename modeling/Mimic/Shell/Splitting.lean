import Mimic.Foundation.Pieces
import Mimic.Shell.Parser

/-!
# Splitting a line loses nothing

The scans that cut a line share one way of reading it: they track quoting, and they step over a
region whole. `reading` is that way of reading, and each of the scans is a function of what it
gives: the separators of `split_segments` and `split_pipeline` and the `#` of `strip_comment` are
looked for among the characters that are read with no quoting.

Whether there is a region somewhere depends on the rest of the line. A piece is read by itself as it
is read in the line (`reading_piece`), because a region in a piece ends in the piece, and because
what is no region in a line is none in the beginning of the line either.
-/

namespace Mimic

namespace Parser

open Pieces

variable {skip n : ℕ} {q : Quotes} {c : Char} {text rest a b : Str}

/-! ### Regions and the end of the text -/

theorem closingBacktick_append {escaped : Bool} (h : closingBacktick escaped a = some n) (b : Str) :
    closingBacktick escaped (a ++ b) = some n := by
  induction a generalizing escaped n with
  | nil => cases h
  | cons c a ih =>
    rw [closingBacktick] at h
    rw [List.cons_append, closingBacktick]
    split_ifs at h ⊢
    · obtain ⟨m, hm, rfl⟩ := Option.map_eq_some_iff.mp h
      rw [ih hm, Option.map_some]
    · exact h
    · obtain ⟨m, hm, rfl⟩ := Option.map_eq_some_iff.mp h
      rw [ih hm, Option.map_some]

theorem closingBacktick_of_append {escaped : Bool} (h : closingBacktick escaped (a ++ b) = some n)
    (hn : n < a.length) : closingBacktick escaped a = some n := by
  induction a generalizing escaped n with
  | nil => cases hn
  | cons c a ih =>
    rw [List.cons_append, closingBacktick] at h
    rw [closingBacktick]
    split_ifs at h ⊢
    · obtain ⟨m, hm, rfl⟩ := Option.map_eq_some_iff.mp h
      rw [ih hm (Nat.lt_of_succ_lt_succ hn), Option.map_some]
    · exact h
    · obtain ⟨m, hm, rfl⟩ := Option.map_eq_some_iff.mp h
      rw [ih hm (Nat.lt_of_succ_lt_succ hn), Option.map_some]

theorem closingParen_append {depth : ℕ} (h : closingParen depth q a = some n) (b : Str) :
    closingParen depth q (a ++ b) = some n := by
  induction a generalizing depth q n with
  | nil => cases h
  | cons c a ih =>
    have hmap : ∀ {depth q}, (closingParen depth q a).map (· + 1) = some n →
        (closingParen depth q (a ++ b)).map (· + 1) = some n := fun h ↦ by
      obtain ⟨m, hm, rfl⟩ := Option.map_eq_some_iff.mp h
      rw [ih hm, Option.map_some]
    rw [closingParen] at h
    rw [List.cons_append, closingParen]
    cases hquote : q.quote? c <;> rw [hquote] at h <;> dsimp only at h ⊢ <;> split_ifs at h ⊢ <;>
      first | exact hmap h | exact h

theorem closingParen_of_append {depth : ℕ} (h : closingParen depth q (a ++ b) = some n)
    (hn : n < a.length) : closingParen depth q a = some n := by
  induction a generalizing depth q n with
  | nil => cases hn
  | cons c a ih =>
    have hmap : ∀ {depth q}, (closingParen depth q (a ++ b)).map (· + 1) = some n →
        (closingParen depth q a).map (· + 1) = some n := fun h ↦ by
      obtain ⟨m, hm, rfl⟩ := Option.map_eq_some_iff.mp h
      rw [ih hm (Nat.lt_of_succ_lt_succ hn), Option.map_some]
    rw [List.cons_append, closingParen] at h
    rw [closingParen]
    cases hquote : q.quote? c <;> rw [hquote] at h <;> dsimp only at h ⊢ <;> split_ifs at h ⊢ <;>
      first | exact hmap h | exact h

/-- The length of a region alone. -/
theorem skipAt_eq (q : Quotes) (text : Str) : skipAt q text =
    if q.inSingle then none else
      match text with
      | '`' :: rest => (closingBacktick false rest).map (· + 2)
      | '$' :: '(' :: rest => (closingParen 0 Quotes.start ('(' :: rest)).map (· + 2)
      | _ => none := by
  have hlength : (substitutionAt text).map Substitution.length =
      match text with
      | '`' :: rest => (closingBacktick false rest).map (· + 2)
      | '$' :: '(' :: rest => (closingParen 0 Quotes.start ('(' :: rest)).map (· + 2)
      | _ => none := by
    fun_cases substitutionAt text with
    | case1 rest => exact Option.map_map ..
    | case2 rest =>
      rw [Option.map_map]
      refine Option.map_congr fun n _ ↦ ?_
      rw [Function.comp_apply]
      split <;> rfl
    | case3 text hbacktick hdollar => simp_all
  rw [skipAt, hlength]

theorem two_le_of_skipAt (h : skipAt q text = some n) : 2 ≤ n := by
  rw [skipAt_eq] at h
  split_ifs at h
  split at h
  · obtain ⟨m, -, rfl⟩ := Option.map_eq_some_iff.mp h
    exact Nat.le_add_left 2 m
  · obtain ⟨m, -, rfl⟩ := Option.map_eq_some_iff.mp h
    exact Nat.le_add_left 2 m
  · cases h

/-- A region is one, whatever comes behind it. -/
theorem skipAt_append (h : skipAt q a = some n) (b : Str) : skipAt q (a ++ b) = some n := by
  rw [skipAt_eq] at h ⊢
  split_ifs at h ⊢
  split at h
  · obtain ⟨m, hm, rfl⟩ := Option.map_eq_some_iff.mp h
    exact congrArg (Option.map _) (closingBacktick_append hm b)
  · obtain ⟨m, hm, rfl⟩ := Option.map_eq_some_iff.mp h
    exact congrArg (Option.map _) (closingParen_append hm b)
  · cases h

/-- A region that ends in the beginning of a text is one there. -/
theorem skipAt_of_append (h : skipAt q (a ++ b) = some n) (hn : n ≤ a.length) :
    skipAt q a = some n := by
  have htwo := two_le_of_skipAt h
  obtain ⟨c, c', a, rfl⟩ : ∃ c c' a', a = c :: c' :: a' := by
    rcases a with - | ⟨c, - | ⟨c', a⟩⟩
    · exact absurd hn (by simp; omega)
    · exact absurd hn (by simp; omega)
    · exact ⟨c, c', a, rfl⟩
  rw [skipAt_eq] at h ⊢
  split_ifs at h ⊢
  rw [List.cons_append, List.cons_append] at h
  rw [List.length_cons] at hn
  split at h
  · rename_i heq
    obtain ⟨rfl, rfl⟩ := List.cons.inj heq
    obtain ⟨m, hm, rfl⟩ := Option.map_eq_some_iff.mp h
    exact congrArg (Option.map _) (closingBacktick_of_append hm (by omega))
  · rename_i heq
    obtain ⟨rfl, htail⟩ := List.cons.inj heq
    obtain ⟨rfl, rfl⟩ := List.cons.inj htail
    obtain ⟨m, hm, rfl⟩ := Option.map_eq_some_iff.mp h
    exact congrArg (Option.map _) (closingParen_of_append hm (by omega))
  · cases h

theorem skipAt_prefix_eq_none (h : skipAt q (a ++ b) = none) : skipAt q a = none := by
  cases hskip : skipAt q a with
  | none => rfl
  | some n =>
    rw [skipAt_append hskip] at h
    cases h

/-! ### Reading a line -/

/-- A character, and the quoting that it is read with: `none` inside of a region. -/
abbrev Marked := Char × Option Quotes

/-- The reading of the rest of a line. -/
def readingLoop (skip : ℕ) (q : Quotes) : Str → List Marked
  | [] => []
  | c :: rest =>
    match skip with
    | skip + 1 => (c, none) :: readingLoop skip q rest
    | 0 =>
      (c, some q) ::
        if q.escaped then readingLoop 0 q.unescape rest
        else
          match skipAt q (c :: rest), q.quote? c with
          | some n, _ => readingLoop (n - 1) q rest
          | none, some q => readingLoop 0 q rest
          | none, none => readingLoop 0 q rest

/-- Every character of a line, with the quoting that it is read with. -/
def reading (line : Str) : List Marked := readingLoop 0 Quotes.start line

/-- The characters of a reading. -/
def plain (xs : List Marked) : Str := xs.map Prod.fst

/-- Characters read with no quoting. -/
def bare (text : Str) : List Marked := text.map fun c ↦ (c, some Quotes.start)

@[simp] theorem plain_nil : plain [] = [] := rfl

@[simp] theorem plain_cons (x : Marked) (xs : List Marked) :
    plain (x :: xs) = x.1 :: plain xs := rfl

theorem plain_append (xs ys : List Marked) : plain (xs ++ ys) = plain xs ++ plain ys :=
  List.map_append

theorem plain_bare (text : Str) : plain (bare text) = text := by
  rw [plain, bare, List.map_map]
  exact List.map_id text

/-- The state behind a character that is read with `q`. -/
def after (q : Quotes) (text : Str) (c : Char) : ℕ × Quotes :=
  if q.escaped then (0, q.unescape)
  else
    match skipAt q text, q.quote? c with
    | some n, _ => (n - 1, q)
    | none, some q => (0, q)
    | none, none => (0, q)

theorem readingLoop_skip : readingLoop (skip + 1) q (c :: rest) =
    (c, none) :: readingLoop skip q rest := rfl

theorem readingLoop_zero : readingLoop 0 q (c :: rest) =
    (c, some q) :: readingLoop (after q (c :: rest) c).1 (after q (c :: rest) c).2 rest := by
  rw [readingLoop, after]
  split_ifs
  · rfl
  · rcases skipAt q (c :: rest) with - | n
    · rcases q.quote? c with - | q' <;> rfl
    · rfl

theorem plain_readingLoop (skip : ℕ) (q : Quotes) (text : Str) :
    plain (readingLoop skip q text) = text := by
  induction text generalizing skip q with
  | nil => rfl
  | cons c text ih =>
    cases skip with
    | zero => rw [readingLoop_zero, plain_cons, ih]
    | succ skip => rw [readingLoop_skip, plain_cons, ih]

/-- What is read after a character is read like this by itself. -/
theorem readingLoop_suffix {x : Char} {q' : Quotes} {xs ys : List Marked}
    (h : readingLoop skip q text = xs ++ (x, some q') :: ys) :
    readingLoop 0 q' (x :: plain ys) = (x, some q') :: ys := by
  induction text generalizing skip q xs with
  | nil => simp [readingLoop] at h
  | cons c text ih =>
    rcases xs with - | ⟨y, xs⟩
    · have htext := congrArg plain h
      rw [plain_readingLoop, List.nil_append, plain_cons] at htext
      cases skip with
      | zero =>
        rw [htext, readingLoop_zero] at h
        obtain ⟨hx, -⟩ := List.cons.inj h
        obtain rfl := Option.some.inj (congrArg Prod.snd hx)
        rw [readingLoop_zero]
        exact h
      | succ skip => cases congrArg Prod.snd (List.cons.inj h).1
    · cases skip with
      | zero =>
        rw [readingLoop_zero] at h
        exact ih (List.cons.inj h).2
      | succ skip => exact ih (List.cons.inj h).2

theorem readingLoop_inside {y : Marked} {xs ys : List Marked}
    (h : readingLoop skip q text = xs ++ y :: ys) (hlt : xs.length < skip) : y.2 = none := by
  induction text generalizing skip xs with
  | nil => simp [readingLoop] at h
  | cons c text ih =>
    cases skip with
    | zero => cases hlt
    | succ skip =>
      rw [readingLoop_skip] at h
      rcases xs with - | ⟨x, xs⟩
      · exact (congrArg Prod.snd (List.cons.inj h).1).symm
      · exact ih (List.cons.inj h).2 (Nat.lt_of_succ_lt_succ hlt)

/-- The beginning of a text is read by itself as it is read there, up to where no region is cut. -/
theorem readingLoop_front {xs ys : List Marked} (h : readingLoop skip q text = xs ++ ys)
    (hys : ∀ y ∈ ys.head?, y.2 ≠ none) : readingLoop skip q (plain xs) = xs := by
  induction text generalizing skip q xs with
  | nil =>
    obtain ⟨rfl, -⟩ := List.append_eq_nil_iff.mp h.symm
    rfl
  | cons c text ih =>
    rcases xs with - | ⟨x, xs⟩
    · rfl
    cases skip with
    | succ skip =>
      obtain ⟨rfl, hrest⟩ := List.cons.inj h
      rw [plain_cons, readingLoop_skip, ih hrest]
    | zero =>
      rw [readingLoop_zero] at h
      obtain ⟨rfl, hrest⟩ := List.cons.inj h
      replace hrest : readingLoop _ _ text = xs ++ ys := hrest
      have htext : text = plain xs ++ plain ys := by
        rw [← plain_append, ← hrest, plain_readingLoop]
      -- a region that starts here ends in the beginning
      have hskip : q.escaped = false → skipAt q (c :: plain xs) = skipAt q (c :: text) := by
        intro hq
        cases hregion : skipAt q (c :: text) with
        | none =>
          rw [htext, ← List.cons_append] at hregion
          exact skipAt_prefix_eq_none hregion
        | some n =>
          rcases ys with - | ⟨y, ys⟩
          · rw [plain_nil, List.append_nil] at htext
            rw [← htext, hregion]
          have hle : n - 1 ≤ xs.length := by
            by_contra hlt
            have hafter : after q (c :: text) c = (n - 1, q) := by
              rw [after, if_neg (by rw [hq]; exact Bool.false_ne_true), hregion]
            rw [hafter] at hrest
            exact hys y rfl (readingLoop_inside hrest (Nat.not_le.mp hlt))
          rw [htext, ← List.cons_append] at hregion
          exact skipAt_of_append hregion (by rw [List.length_cons, plain, List.length_map]; omega)
      have hafter : after q (c :: plain xs) c = after q (c :: text) c := by
        cases hq : q.escaped with
        | true => rw [after, after, if_pos hq, if_pos hq]
        | false => rw [after, after, hskip hq]
      rw [plain_cons, readingLoop_zero, hafter, ih hrest]

/-- A character that is neither quoting nor the start of a region. -/
def isOrdinary (c : Char) : Bool := !(c == '\\' || c == '\'' || c == '"' || c == '`' || c == '$')

theorem skipAt_of_ne (hdollar : c ≠ '$') (hbacktick : c ≠ '`') : skipAt q (c :: rest) = none := by
  rw [skipAt_eq]
  split_ifs
  · rfl
  split
  · rename_i heq
    exact absurd (List.cons.inj heq).1 hbacktick
  · rename_i heq
    exact absurd (List.cons.inj heq).1 hdollar
  · rfl

theorem skipAt_ordinary (hc : isOrdinary c = true) : skipAt q (c :: rest) = none := by
  refine skipAt_of_ne ?_ ?_ <;> rintro rfl <;> exact absurd hc (by decide)

theorem quote?_ordinary (hc : isOrdinary c = true) : q.quote? c = none := by
  simp only [isOrdinary, Bool.not_eq_true', Bool.or_eq_false_iff, beq_eq_false_iff_ne] at hc
  rw [Quotes.quote?, if_neg fun h ↦ hc.1.1.1.1 h.1, if_neg fun h ↦ hc.1.1.1.2 h.1,
    if_neg fun h ↦ hc.1.1.2 h.1]

theorem after_ordinary (hc : isOrdinary c = true) :
    after Quotes.start (c :: rest) c = (0, Quotes.start) := by
  rw [after, if_neg (by decide), skipAt_ordinary hc, quote?_ordinary hc]

theorem bare_iff (hq : q.escaped = false) : q.bare = true ↔ q = Quotes.start := by
  obtain ⟨inSingle, inDouble, escaped⟩ := q
  obtain rfl : escaped = false := hq
  cases inSingle <;> cases inDouble <;> decide

/-- **A piece of a line is read by itself as it is read in the line**, where what is in front of it
and behind it is not quoted. -/
theorem reading_piece {xs ys zs : List Marked} {line : Str} (h : reading line = xs ++ (ys ++ zs))
    (hxs : ∀ x ∈ xs.getLast?, isOrdinary x.1 = true ∧ x.2 = some Quotes.start)
    (hzs : ∀ z ∈ zs.head?, z.2 ≠ none) : reading (plain ys) = ys := by
  rcases List.eq_nil_or_concat xs with rfl | ⟨init, ⟨x, m⟩, rfl⟩
  · exact readingLoop_front h hzs
  · rw [List.concat_eq_append] at h hxs
    obtain ⟨hx, rfl⟩ := hxs (x, m) (List.getLast?_concat ..)
    rw [List.append_assoc, List.singleton_append] at h
    have hrest := readingLoop_suffix h
    rw [readingLoop_zero, after_ordinary hx] at hrest
    exact readingLoop_front (List.cons.inj hrest).2 hzs

/-! ### Stages -/

/-- A pipe in front of a reading. -/
def pipe (xs : List Marked) : Option Unit := if bare ['|'] <+: xs then some () else none

/-- The separator of `split_pipeline`. -/
def pipeText : Unit → List Marked := fun _ ↦ bare ['|']

theorem cuts_pipe : Cuts pipeText pipe where
  ne_nil _ := List.cons_ne_nil _ _
  starts h := by
    rw [pipe] at h
    split_ifs at h
    assumption
  append h ys := by
    rw [pipe] at h ⊢
    split_ifs at h with hpipe
    rw [if_pos (hpipe.trans (List.prefix_append _ ys))]

theorem bare_singleton_iff {m : Option Quotes} {c' : Char} {xs : List Marked} :
    bare [c'] <+: (c, m) :: xs ↔ c = c' ∧ m = some Quotes.start := by
  rw [bare, List.map_cons, List.map_nil, List.cons_prefix_cons, and_iff_left List.nil_prefix,
    Prod.mk.injEq, eq_comm, and_congr_right fun _ ↦ eq_comm]

theorem splitPipelineLoop_zero : splitPipelineLoop 0 q (c :: rest) =
    if c = '|' ∧ q = Quotes.start then [] :: splitPipelineLoop 0 Quotes.start rest
    else pushStage c
      (splitPipelineLoop (after q (c :: rest) c).1 (after q (c :: rest) c).2 rest) := by
  rw [splitPipelineLoop, after]
  by_cases hpipe : c = '|' ∧ q = Quotes.start
  · obtain ⟨rfl, rfl⟩ := hpipe
    rw [if_neg (by decide), skipAt_ordinary (by decide), quote?_ordinary (by decide)]
    rfl
  rw [if_neg hpipe]
  cases hq : q.escaped with
  | true => rfl
  | false =>
    rw [if_neg Bool.false_ne_true, if_neg Bool.false_ne_true]
    rcases skipAt q (c :: rest) with - | n
    · rcases q.quote? c with - | q'
      · exact if_neg fun h ↦ hpipe ⟨h.1, (bare_iff hq).mp h.2⟩
      · rfl
    · rfl

theorem splitPipelineLoop_eq (skip : ℕ) (q : Quotes) (text : Str) : splitPipelineLoop skip q text =
    (split pipeText pipe () (readingLoop skip q text)).map fun piece ↦ plain piece.2 := by
  have hpush : ∀ (x : Marked) (pieces : List (Unit × List Marked)),
      (push x pieces).map (fun piece ↦ plain piece.2) =
        pushStage x.1 (pieces.map fun piece ↦ plain piece.2) := fun x pieces ↦ by
    cases pieces <;> rfl
  induction text generalizing skip q with
  | nil => rw [readingLoop, split_nil]; rfl
  | cons c text ih =>
    cases skip with
    | succ skip =>
      rw [readingLoop_skip, split_cons_of_none, hpush, ← ih]
      · rfl
      · exact if_neg fun h ↦ by cases (bare_singleton_iff.mp h).2
    | zero =>
      rw [splitPipelineLoop_zero, readingLoop_zero]
      split_ifs with hpipe
      · obtain ⟨rfl, rfl⟩ := hpipe
        rw [after_ordinary (by decide), split_of_some cuts_pipe (if_pos ?_), List.map_cons]
        · rw [ih]
          rfl
        · exact bare_singleton_iff.mpr ⟨rfl, rfl⟩
      · rw [split_cons_of_none, hpush, ← ih]
        exact if_neg fun h ↦ hpipe ⟨(bare_singleton_iff.mp h).1,
          Option.some.inj (bare_singleton_iff.mp h).2⟩

/-! ### Segments -/

/-- The operator in front of a segment. -/
def Separator.symbols : Separator → Str
  | .always => [';']
  | .andIf => ['&', '&']
  | .orIf => ['|', '|']

/-- A separator in front of a reading. -/
def separator (xs : List Marked) : Option Separator :=
  if bare Separator.always.symbols <+: xs then some .always
  else if bare Separator.andIf.symbols <+: xs then some .andIf
  else if bare Separator.orIf.symbols <+: xs then some .orIf
  else none

theorem separator_eq_some_iff {xs : List Marked} {kind : Separator} :
    separator xs = some kind ↔ bare kind.symbols <+: xs := by
  -- the operators start with different characters
  have hhead : ∀ {kind kind' : Separator}, bare kind.symbols <+: xs → bare kind'.symbols <+: xs →
      kind = kind' := by
    rintro kind kind' ⟨ys, rfl⟩ h'
    cases kind <;> cases kind' <;> first | rfl | exact absurd h' (by
      simp [Separator.symbols, bare])
  rw [separator]
  constructor
  · intro h
    split_ifs at h with h₁ h₂ h₃ <;> obtain rfl := Option.some.inj h <;> assumption
  · intro h
    split_ifs with h₁ h₂ h₃
    · rw [hhead h₁ h]
    · rw [hhead h₂ h]
    · rw [hhead h₃ h]
    · cases kind <;> contradiction

/-- The separators of `split_segments`. -/
def separatorText (kind : Separator) : List Marked := bare kind.symbols

theorem cuts_separator : Cuts separatorText separator where
  ne_nil kind := by cases kind <;> exact List.cons_ne_nil _ _
  starts := separator_eq_some_iff.mp
  append h ys :=
    separator_eq_some_iff.mpr ((separator_eq_some_iff.mp h).trans (List.prefix_append _ ys))

theorem splitSegmentsLoop_plain (runIf : Separator)
    (hplain : (c = ';' ∨ c = '&' ∨ c = '|') → q ≠ Quotes.start) :
    splitSegmentsLoop runIf 0 q (c :: rest) = pushSegment c
      (splitSegmentsLoop runIf (after q (c :: rest) c).1 (after q (c :: rest) c).2 rest) := by
  rw [splitSegmentsLoop.eq_def, after]
  dsimp only
  cases hq : q.escaped with
  | true => rfl
  | false =>
    have hbare : (c = ';' ∨ c = '&' ∨ c = '|') → ¬ q.bare = true := fun h ↦
      mt (bare_iff hq).mp (hplain h)
    rw [if_neg Bool.false_ne_true, if_neg Bool.false_ne_true]
    rcases skipAt q (c :: rest) with - | n
    · rcases q.quote? c with - | q'
      · dsimp only
        rw [if_neg fun h ↦ hbare (Or.inl h.1) h.2]
        rcases rest with - | ⟨c', rest⟩
        · rfl
        · dsimp only
          rw [if_neg fun h ↦ hbare (Or.inr (Or.inl h.1)) h.2.2,
            if_neg fun h ↦ hbare (Or.inr (Or.inr h.1)) h.2.2]
      · rfl
    · rfl

/-- An operator cuts, and nothing else does. -/
theorem splitSegmentsLoop_start (runIf : Separator) (hc : c = ';' ∨ c = '&' ∨ c = '|') :
    splitSegmentsLoop runIf 0 Quotes.start (c :: rest) =
      if c = ';' then ⟨runIf, []⟩ :: splitSegmentsLoop .always 0 Quotes.start rest
      else if c = '&' ∧ rest.head? = some '&' then
        ⟨runIf, []⟩ :: splitSegmentsLoop .andIf 0 Quotes.start rest.tail
      else if c = '|' ∧ rest.head? = some '|' then
        ⟨runIf, []⟩ :: splitSegmentsLoop .orIf 0 Quotes.start rest.tail
      else pushSegment c (splitSegmentsLoop runIf 0 Quotes.start rest) := by
  have hordinary : isOrdinary c = true := by rcases hc with rfl | rfl | rfl <;> decide
  have hbare : Quotes.start.bare = true := rfl
  rw [splitSegmentsLoop.eq_def]
  dsimp only
  rw [if_neg (by decide), skipAt_ordinary hordinary, quote?_ordinary hordinary]
  rcases rest with - | ⟨c', rest⟩ <;> simp [hbare]

theorem symbols_of_bare {m : Option Quotes} {xs : List Marked} {kind : Separator}
    (h : bare kind.symbols <+: (c, m) :: xs) :
    (c = ';' ∨ c = '&' ∨ c = '|') ∧ m = some Quotes.start := by
  cases kind
  · obtain ⟨rfl, rfl⟩ := bare_singleton_iff.mp h
    exact ⟨Or.inl rfl, rfl⟩
  · obtain ⟨heq, -⟩ := List.cons_prefix_cons.mp h
    obtain ⟨rfl, rfl⟩ := Prod.mk.inj heq
    exact ⟨Or.inr (Or.inl rfl), rfl⟩
  · obtain ⟨heq, -⟩ := List.cons_prefix_cons.mp h
    obtain ⟨rfl, rfl⟩ := Prod.mk.inj heq
    exact ⟨Or.inr (Or.inr rfl), rfl⟩

theorem separator_eq_none {xs : List Marked} (h : ∀ kind, ¬ bare (Separator.symbols kind) <+: xs) :
    separator xs = none :=
  Option.eq_none_iff_forall_ne_some.mpr fun kind hkind ↦ h kind (separator_eq_some_iff.mp hkind)

/-- A doubled operator in front of a reading. -/
theorem bare_pair_iff {c' : Char} :
    bare [c', c'] <+: (c, some Quotes.start) :: readingLoop 0 Quotes.start text ↔
      c = c' ∧ text.head? = some c' := by
  rw [bare, List.map_cons, List.cons_prefix_cons, Prod.mk.injEq, and_iff_left rfl, eq_comm]
  refine and_congr_right fun _ ↦ ?_
  rcases text with - | ⟨c'', text⟩
  · simp [readingLoop]
  · rw [readingLoop_zero]
    exact bare_singleton_iff.trans (by simp)

theorem splitSegmentsLoop_eq (runIf : Separator) (skip : ℕ) (q : Quotes) (text : Str) :
    splitSegmentsLoop runIf skip q text =
      (split separatorText separator runIf (readingLoop skip q text)).map fun piece ↦
        ⟨piece.1, plain piece.2⟩ := by
  have hpush : ∀ (x : Marked) (pieces : List (Separator × List Marked)),
      (push x pieces).map (fun piece ↦ (⟨piece.1, plain piece.2⟩ : Segment)) =
        pushSegment x.1 (pieces.map fun piece ↦ ⟨piece.1, plain piece.2⟩) := fun x pieces ↦ by
    cases pieces <;> rfl
  -- an operator is one character or two
  induction hn : text.length using Nat.strong_induction_on generalizing runIf skip q text with
  | _ n ih =>
  subst hn
  rcases text with - | ⟨c, text⟩
  · rw [readingLoop, split_nil]
    rfl
  have ih' := fun runIf skip q ↦ ih text.length (Nat.lt_succ_self _) runIf skip q text rfl
  cases skip with
  | succ skip =>
    rw [readingLoop_skip, split_cons_of_none, hpush, ← ih']
    · rfl
    · exact separator_eq_none fun kind h ↦ by cases (symbols_of_bare h).2
  | zero =>
    rw [readingLoop_zero]
    by_cases hop : (c = ';' ∨ c = '&' ∨ c = '|') ∧ q = Quotes.start
    swap
    · rw [splitSegmentsLoop_plain runIf fun h hq ↦ hop ⟨h, hq⟩, split_cons_of_none, hpush, ← ih']
      exact separator_eq_none fun kind h ↦
        hop ⟨(symbols_of_bare h).1, Option.some.inj (symbols_of_bare h).2⟩
    obtain ⟨hc, rfl⟩ := hop
    have hordinary : isOrdinary c = true := by rcases hc with rfl | rfl | rfl <;> decide
    -- behind a doubled operator
    have hdouble : ∀ (kind : Separator) (c' : Char), kind.symbols = [c', c'] →
        isOrdinary c' = true → c = c' ∧ text.head? = some c' →
        ⟨runIf, []⟩ :: splitSegmentsLoop kind 0 Quotes.start text.tail =
          (split separatorText separator runIf
            ((c, some Quotes.start) :: readingLoop 0 Quotes.start text)).map
              fun piece ↦ (⟨piece.1, plain piece.2⟩ : Segment) := by
      rintro kind c' hsymbols hordinary' ⟨rfl, hhead⟩
      have hcut : separator ((c, some Quotes.start) :: readingLoop 0 Quotes.start text) =
        some kind :=
        separator_eq_some_iff.mpr (hsymbols ▸ bare_pair_iff.mpr ⟨rfl, hhead⟩)
      rw [split_of_some cuts_separator hcut, separatorText, hsymbols]
      rcases text with - | ⟨c', text⟩
      · cases hhead
      obtain rfl := Option.some.inj hhead
      rw [readingLoop_zero, after_ordinary hordinary, List.tail_cons,
        ih text.length (by simp) kind 0 Quotes.start text rfl]
      rfl
    rw [splitSegmentsLoop_start runIf hc, after_ordinary hordinary]
    split_ifs with h₁ h₂ h₃
    · subst h₁
      have hcut : separator ((';', some Quotes.start) :: readingLoop 0 Quotes.start text) =
          some .always := separator_eq_some_iff.mpr (bare_singleton_iff.mpr ⟨rfl, rfl⟩)
      rw [split_of_some cuts_separator hcut, ih']
      rfl
    · exact hdouble .andIf '&' rfl (by decide) h₂
    · exact hdouble .orIf '|' rfl (by decide) h₃
    · rw [split_cons_of_none, hpush, ← ih']
      refine separator_eq_none fun kind h ↦ ?_
      cases kind
      · exact h₁ (bare_singleton_iff.mp h).1
      · exact h₂ (bare_pair_iff.mp h)
      · exact h₃ (bare_pair_iff.mp h)

/-! ### Comments -/

/-- A word starts behind the character. -/
def endsWord (x : Marked) : Bool :=
  x.2 == some Quotes.start && (x.1 == ';' || x.1 == '&' || x.1 == '|' || isAsciiWhitespace x.1)

/-- A reading up to its comment. -/
def cutComment (wordStart : Bool) : List Marked → List Marked
  | [] => []
  | x :: rest =>
    if x = ('#', some Quotes.start) ∧ wordStart = true then []
    else x :: cutComment (endsWord x) rest

theorem endsWord_some : endsWord (c, some q) = true ↔
    (c = ';' ∨ c = '&' ∨ c = '|' ∨ isAsciiWhitespace c = true) ∧ q = Quotes.start := by
  rw [endsWord, Bool.and_eq_true, beq_iff_eq, Option.some_inj, and_comm]
  simp only [Bool.or_eq_true, beq_iff_eq, or_assoc]

theorem not_special_of_not_ordinary (hc : ¬ isOrdinary c = true) :
    c ≠ '#' ∧ endsWord (c, some q) = false := by
  have hcases : c = '\\' ∨ c = '\'' ∨ c = '"' ∨ c = '`' ∨ c = '$' := by
    by_contra hnot
    simp only [not_or] at hnot
    exact hc (by simp [isOrdinary, hnot])
  rw [← Bool.not_eq_true, endsWord_some]
  rcases hcases with rfl | rfl | rfl | rfl | rfl <;>
    exact ⟨by decide, fun h ↦ absurd h.1 (by decide)⟩

theorem stripCommentLoop_zero (wordStart : Bool) : stripCommentLoop 0 q wordStart (c :: rest) =
    if (c = '#' ∧ q = Quotes.start) ∧ wordStart = true then []
    else c :: stripCommentLoop (after q (c :: rest) c).1 (after q (c :: rest) c).2
      (endsWord (c, some q)) rest := by
  rw [stripCommentLoop, after]
  dsimp only
  cases hq : q.escaped with
  | true =>
    have hne : q ≠ Quotes.start := by rintro rfl; cases hq
    have hends : endsWord (c, some q) = false := by
      rw [← Bool.not_eq_true, endsWord_some]
      exact fun h ↦ hne h.2
    rw [if_pos rfl, if_neg fun h ↦ hne h.1.2, hends]
    rfl
  | false =>
    rw [if_neg Bool.false_ne_true, if_neg Bool.false_ne_true]
    have hspecial : ¬ isOrdinary c = true →
        ¬ ((c = '#' ∧ q = Quotes.start) ∧ wordStart = true) ∧ endsWord (c, some q) = false :=
      fun hc ↦ ⟨fun h ↦ (not_special_of_not_ordinary (q := q) hc).1 h.1.1,
        (not_special_of_not_ordinary hc).2⟩
    rcases hskip : skipAt q (c :: rest) with - | n
    · rcases hquote : q.quote? c with - | q'
      · dsimp only
        refine if_congr ?_ rfl (congrArg (c :: ·) (congrArg (stripCommentLoop 0 q · rest) ?_))
        · rw [bare_iff hq, and_assoc, and_comm (a := wordStart = true)]
        · rw [Bool.eq_iff_iff, endsWord_some, decide_eq_true_iff, bare_iff hq]
      · obtain ⟨hhash, hends⟩ := hspecial fun hc ↦ by
          rw [quote?_ordinary hc] at hquote
          cases hquote
        rw [if_neg hhash, hends]
    · obtain ⟨hhash, hends⟩ := hspecial fun hc ↦ by
        rw [skipAt_ordinary hc] at hskip
        cases hskip
      rw [if_neg hhash, hends]

theorem stripCommentLoop_eq (wordStart : Bool) (skip : ℕ) (q : Quotes) (text : Str) :
    stripCommentLoop skip q wordStart text =
      plain (cutComment wordStart (readingLoop skip q text)) := by
  induction text generalizing skip q wordStart with
  | nil => rfl
  | cons c text ih =>
    cases skip with
    | succ skip =>
      have hnot : ¬ (((c, none) : Marked) = ('#', some Quotes.start) ∧ wordStart = true) :=
        fun h ↦ Option.some_ne_none _ (Prod.mk.inj h.1).2.symm
      rw [readingLoop_skip, cutComment, if_neg hnot, plain_cons, ← ih]
      rfl
    | zero =>
      have hhash : (c = '#' ∧ q = Quotes.start) ∧ wordStart = true ↔
          ((c, some q) : Marked) = ('#', some Quotes.start) ∧ wordStart = true := by
        rw [Prod.mk.injEq, Option.some_inj]
      rw [stripCommentLoop_zero, readingLoop_zero, cutComment]
      by_cases h : (c = '#' ∧ q = Quotes.start) ∧ wordStart = true
      · rw [if_pos h, if_pos (hhash.mp h)]
        rfl
      · rw [if_neg h, if_neg (mt hhash.mpr h), plain_cons, ih]

theorem cutComment_append (wordStart : Bool) (xs : List Marked) :
    ∃ ys, xs = cutComment wordStart xs ++ ys ∧ ∀ y ∈ ys.head?, y.2 ≠ none := by
  induction xs generalizing wordStart with
  | nil => exact ⟨[], rfl, fun _ h ↦ by cases h⟩
  | cons x xs ih =>
    rw [cutComment]
    split_ifs with h
    · refine ⟨x :: xs, rfl, fun y hy ↦ ?_⟩
      obtain rfl := Option.some.inj hy
      rw [h.1]
      exact Option.some_ne_none _
    · obtain ⟨ys, hys, hhead⟩ := ih (endsWord x)
      exact ⟨ys, congrArg (x :: ·) hys, hhead⟩

theorem cutComment_cutComment (wordStart : Bool) (xs : List Marked) :
    cutComment wordStart (cutComment wordStart xs) = cutComment wordStart xs := by
  induction xs generalizing wordStart with
  | nil => rfl
  | cons x xs ih =>
    rw [cutComment]
    split_ifs with h
    · rfl
    · rw [cutComment, if_neg h, ih]

/-! ### Pieces of a line -/

/-- A piece is read by itself as it is read in the line. -/
theorem reading_of_mem_split {β : Type} {sep : β → List Marked} {cut : List Marked → Option β}
    {kind kind' : β} {piece : List Marked} {line : Str} (hcuts : Cuts sep cut)
    (hsep : ∀ kind, ∀ x ∈ sep kind, isOrdinary x.1 = true ∧ x.2 = some Quotes.start)
    (h : (kind, piece) ∈ split sep cut kind' (reading line)) : reading (plain piece) = piece := by
  obtain ⟨front, back, hsplit⟩ := List.append_of_mem h
  have hjoin := join_split hcuts kind' (reading line)
  have hback : ∀ z ∈ (joinTail sep back).head?, z.2 ≠ none := fun z hz ↦ by
    rcases back with - | ⟨next, back⟩
    · cases hz
    obtain ⟨x, xs, hx⟩ := List.exists_cons_of_ne_nil (hcuts.ne_nil next.1)
    have hmem := hsep next.1 x (hx ▸ List.mem_cons_self)
    rw [joinTail, List.flatMap_cons, hx] at hz
    obtain rfl := Option.some.inj hz
    rw [hmem.2]
    exact Option.some_ne_none _
  rw [hsplit] at hjoin
  by_cases hfront : front = []
  · subst hfront
    have hline : reading line = [] ++ (piece ++ joinTail sep back) := hjoin.symm
    exact reading_piece hline (fun _ h ↦ by cases h) hback
  · rw [join_append hfront] at hjoin
    have hline : reading line = (join sep front ++ sep kind) ++ (piece ++ joinTail sep back) := by
      rw [← hjoin, joinTail, List.flatMap_cons]
      simp [joinTail]
    refine reading_piece hline (fun x hx ↦ ?_) hback
    · rw [List.getLast?_append_of_ne_nil _ (hcuts.ne_nil kind)] at hx
      exact hsep kind x (List.mem_of_mem_getLast? hx)

theorem bare_isOrdinary {symbols : Str} (h : symbols.all isOrdinary = true) :
    ∀ x ∈ bare symbols, isOrdinary x.1 = true ∧ x.2 = some Quotes.start := fun x hx ↦ by
  obtain ⟨c, hc, rfl⟩ := List.mem_map.mp hx
  exact ⟨List.all_eq_true.mp h c hc, rfl⟩

/-- The segments with their operators. -/
def joinSegments : List Segment → Str
  | [] => []
  | segment :: segments =>
    segment.text ++ segments.flatMap fun segment ↦ segment.runIf.symbols ++ segment.text

/-- The stages with the pipes between them. -/
def joinStages : List Str → Str
  | [] => []
  | stage :: stages => stage ++ stages.flatMap fun stage ↦ '|' :: stage

/-- What is at place `n` of the line is `symbols`, not in quotes, not behind a backslash and not in
a region. -/
def Unquoted (line : Str) (n : ℕ) (symbols : Str) : Prop := bare symbols <+: (reading line).drop n

theorem plain_join_segments (pieces : List (Separator × List Marked)) :
    plain (join separatorText pieces) =
      joinSegments (pieces.map fun piece ↦ ⟨piece.1, plain piece.2⟩) := by
  rcases pieces with - | ⟨first, pieces⟩
  · rfl
  rw [join, plain_append, List.map_cons, joinSegments, joinTail]
  congr 1
  induction pieces with
  | nil => rfl
  | cons piece pieces ih =>
    rw [List.flatMap_cons, plain_append, plain_append, separatorText, plain_bare, ih, List.map_cons,
      List.flatMap_cons]

theorem plain_join_stages (pieces : List (Unit × List Marked)) :
    plain (join pipeText pieces) = joinStages (pieces.map fun piece ↦ plain piece.2) := by
  rcases pieces with - | ⟨first, pieces⟩
  · rfl
  rw [join, plain_append, List.map_cons, joinStages, joinTail]
  congr 1
  induction pieces with
  | nil => rfl
  | cons piece pieces ih =>
    rw [List.flatMap_cons, plain_append, plain_append, pipeText, plain_bare, ih, List.map_cons,
      List.flatMap_cons]
    rfl

/-- The separator in front of a piece. -/
theorem unquoted_of_split {β : Type} {sep : β → List Marked} {cut : List Marked → Option β}
    {kind' : β} {piece : β × List Marked} {front back : List (β × List Marked)} {line symbols : Str}
    (hcuts : Cuts sep cut) (hsymbols : sep piece.1 = bare symbols)
    (h : split sep cut kind' (reading line) = front ++ piece :: back) (hfront : front ≠ []) :
    Unquoted line (plain (join sep front)).length symbols := by
  have hjoin := join_split hcuts kind' (reading line)
  rw [h, join_append hfront] at hjoin
  rw [Unquoted, ← hjoin, plain, List.length_map, List.drop_left, joinTail, List.flatMap_cons,
    hsymbols, List.append_assoc]
  exact List.prefix_append ..

/-- **Splitting a line loses nothing and is done once.** Segments with their operators are the line,
a segment splits into itself alone, and no operator is in quotes, behind a backslash or in a region.
The same holds of stages and pipes. What is left of a line without its comment is a beginning of it
that has no comment. -/
theorem splitting_lossless (line : Str) :
    (joinSegments (splitSegments line) = line ∧
      (∀ segment ∈ splitSegments line, splitSegments segment.text = [⟨.always, segment.text⟩]) ∧
      ∀ front segment back, splitSegments line = front ++ segment :: back → front ≠ [] →
        Unquoted line (joinSegments front).length segment.runIf.symbols) ∧
    (joinStages (splitPipeline line) = line ∧
      (∀ stage ∈ splitPipeline line, splitPipeline stage = [stage]) ∧
      ∀ front stage back, splitPipeline line = front ++ stage :: back → front ≠ [] →
        Unquoted line (joinStages front).length ['|']) ∧
    stripComment line <+: line ∧ stripComment (stripComment line) = stripComment line := by
  have hsegments : ∀ line, splitSegments line = (split separatorText separator .always
      (reading line)).map fun piece ↦ ⟨piece.1, plain piece.2⟩ := fun line ↦
    splitSegmentsLoop_eq .always 0 Quotes.start line
  have hstages : ∀ line, splitPipeline line = (split pipeText pipe ()
      (reading line)).map fun piece ↦ plain piece.2 := fun line ↦
    splitPipelineLoop_eq 0 Quotes.start line
  refine ⟨⟨?_, fun segment h ↦ ?_, fun front segment back h hfront ↦ ?_⟩,
    ⟨?_, fun stage h ↦ ?_, fun front stage back h hfront ↦ ?_⟩, ?_⟩
  · rw [hsegments, ← plain_join_segments, join_split cuts_separator]
    exact plain_readingLoop 0 Quotes.start line
  · rw [hsegments] at h
    obtain ⟨⟨kind, piece⟩, hmem, rfl⟩ := List.mem_map.mp h
    have hreading : reading (plain piece) = piece := reading_of_mem_split cuts_separator
      (fun kind ↦ bare_isOrdinary (by cases kind <;> decide)) hmem
    rw [hsegments, hreading, split_piece cuts_separator (by decide) hmem]
    rfl
  · rw [hsegments] at h
    obtain ⟨front, tail, hsplit, rfl, htail⟩ := List.map_eq_append_iff.mp h
    obtain ⟨piece, back, rfl, rfl, rfl⟩ := List.map_eq_cons_iff.mp htail
    rw [← plain_join_segments]
    exact unquoted_of_split cuts_separator rfl hsplit fun h ↦ hfront (by rw [h]; rfl)
  · rw [hstages, ← plain_join_stages, join_split cuts_pipe]
    exact plain_readingLoop 0 Quotes.start line
  · rw [hstages] at h
    obtain ⟨⟨kind, piece⟩, hmem, rfl⟩ := List.mem_map.mp h
    have hreading : reading (plain piece) = piece := reading_of_mem_split cuts_pipe
      (fun _ ↦ bare_isOrdinary (by decide)) hmem
    rw [hstages, hreading, split_piece cuts_pipe (by decide) hmem]
    rfl
  · rw [hstages] at h
    obtain ⟨front, tail, hsplit, rfl, htail⟩ := List.map_eq_append_iff.mp h
    obtain ⟨piece, back, rfl, rfl, rfl⟩ := List.map_eq_cons_iff.mp htail
    rw [← plain_join_stages]
    exact unquoted_of_split cuts_pipe rfl hsplit fun h ↦ hfront (by rw [h]; rfl)
  · have hstrip : ∀ line, stripComment line = plain (cutComment true (reading line)) := fun line ↦
      stripCommentLoop_eq true 0 Quotes.start line
    obtain ⟨ys, hys, hhead⟩ := cutComment_append true (reading line)
    have hreading : reading (plain (cutComment true (reading line))) =
        cutComment true (reading line) := readingLoop_front hys hhead
    refine ⟨⟨plain ys, ?_⟩, ?_⟩
    · rw [hstrip, ← plain_append, ← hys]
      exact plain_readingLoop 0 Quotes.start line
    · rw [hstrip, hstrip, hreading, cutComment_cutComment]

end Parser

end Mimic
