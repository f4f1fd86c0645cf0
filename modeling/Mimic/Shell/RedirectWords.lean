import Mimic.Shell.Splitting
import Mimic.Shell.Words

/-!
# Redirections between words

`split_redirects` cuts redirections out of a stage and glues what is left (`cutRedirects` keeps the
pieces apart). Nothing is put in the place of a redirection, so that a word in front of one and a
word behind it become one word where there is no whitespace: `echo a>&1b` has the arguments `echo`
and `ab`. `redirects_keep_words` says when the words of the pieces are kept.

The pieces are compared with the words that `tokenize` makes of them, so the condition is about the
quoting that `tokenize` sees. It sees the quotes in a substitution too. A stage without a
substitution has no piece that ends in an open quote.
-/

namespace Mimic

namespace Interp

open Mimic.Parser

variable {r : Reader} {q : Quotes} {c : Char} {text a b piece : Str} {pieces : List Str}

/-! ### The tokenizer, character by character -/

/-- The quoting behind a character. -/
def quotingStep (q : Quotes) (c : Char) : Quotes :=
  if q.escaped then q.unescape else (q.quote? c).getD q

/-- What is read behind a character. -/
def Reader.step (r : Reader) (q : Quotes) (c : Char) : Reader :=
  if q.escaped then r.escape q.inDouble c
  else
    match q.quote? c with
    | some q' => if q'.escaped then r else r.quote
    | none => r.plain (q.inSingle || q.inDouble) c

/-- The quoting behind a text. -/
def quotingAfter (q : Quotes) (text : Str) : Quotes := text.foldl quotingStep q

/-- What is read behind a text. -/
def Reader.read (r : Reader) (q : Quotes) : Str → Reader
  | [] => r
  | c :: rest => (r.step q c).read (quotingStep q c) rest

@[simp] theorem Reader.read_nil : r.read q [] = r := rfl

theorem Reader.read_cons :
    r.read q (c :: text) = (r.step q c).read (quotingStep q c) text := rfl

theorem quotingAfter_cons : quotingAfter q (c :: text) = quotingAfter (quotingStep q c) text := rfl

theorem quotingAfter_append : quotingAfter q (a ++ b) = quotingAfter (quotingAfter q a) b :=
  List.foldl_append

theorem Reader.read_append : r.read q (a ++ b) = (r.read q a).read (quotingAfter q a) b := by
  induction a generalizing r q with
  | nil => rfl
  | cons c a ih => rw [List.cons_append, read_cons, read_cons, quotingAfter_cons, ih]

/-- **The tokenizer reads character by character.** -/
theorem thenTokens_eq_read (text : Str) (r : Reader) (inSingle inDouble : Bool) :
    r.thenTokens inSingle inDouble text = (r.read ⟨inSingle, inDouble, false⟩ text).finish := by
  -- a backslash is read with the character behind it
  induction hn : text.length using Nat.strong_induction_on
    generalizing text r inSingle inDouble with
  | _ n ih =>
  subst hn
  rcases text with - | ⟨c, text⟩
  · exact Reader.thenTokens_nil
  by_cases hb : c = '\\' ∧ !inSingle
  · obtain ⟨rfl, hsingle⟩ := hb
    obtain rfl : inSingle = false := by simpa using hsingle
    have hstep : r.step ⟨false, inDouble, false⟩ '\\' = r := rfl
    have hquoting : quotingStep ⟨false, inDouble, false⟩ '\\' = ⟨false, inDouble, true⟩ := rfl
    rw [Reader.read_cons, hstep, hquoting]
    rcases text with - | ⟨next, text⟩
    · rw [Reader.read_nil, Reader.thenTokens, tokenizeLoop.eq_def]
      simp only [Bool.not_false, true_and, reduceIte]
      rw [if_neg (by simp), if_neg (by simp), ← Reader.thenTokens, Reader.thenTokens_nil]
    · rw [Reader.thenTokens_escape rfl, ih text.length (by simp) text _ _ _ rfl, Reader.read_cons]
      rfl
  by_cases hs : c = '\'' ∧ !inDouble
  · obtain ⟨rfl, hdouble⟩ := hs
    obtain rfl : inDouble = false := by simpa using hdouble
    rw [Reader.thenTokens_single rfl, ih text.length (by simp) text _ _ _ rfl, Reader.read_cons]
    cases inSingle <;> rfl
  by_cases hd : c = '"' ∧ !inSingle
  · obtain ⟨rfl, hsingle⟩ := hd
    obtain rfl : inSingle = false := by simpa using hsingle
    rw [Reader.thenTokens_double rfl, ih text.length (by simp) text _ _ _ rfl, Reader.read_cons]
    cases inDouble <;> rfl
  · have hquote : Quotes.quote? ⟨inSingle, inDouble, false⟩ c = none := by
      rw [Quotes.quote?, if_neg hb, if_neg hs, if_neg hd]
    rw [Reader.thenTokens_plain hs hd hb, ih text.length (by simp) text _ _ _ rfl,
      Reader.read_cons, Reader.step, quotingStep, hquote]
    rfl

theorem tokenize_eq_read (text : Str) :
    tokenize text = (Reader.start.read Quotes.start text).finish :=
  thenTokens_eq_read text .start false false

/-! ### Words of two texts -/

namespace Reader

/-- The reader with words in front of what it has read. -/
def behind (r : Reader) (words : List Str) : Reader := { r with words := words ++ r.words }

variable {words : List Str} {cur : Str}

theorem finish_behind : (r.behind words).finish = words ++ r.finish := by
  rw [finish, finish, behind]
  split <;> simp

theorem step_behind : (r.behind words).step q c = (r.step q c).behind words := by
  have hblank : (r.behind words).blank = r.blank.behind words := by
    rw [blank, blank, behind]
    split <;> simp [behind]
  have hplain : ∀ quoted, (r.behind words).plain quoted c = (r.plain quoted c).behind words :=
    fun quoted ↦ by
      rw [plain, plain]
      split
      · exact hblank
      · rfl
  have hescape : ∀ inDouble, (r.behind words).escape inDouble c =
      (r.escape inDouble c).behind words := fun inDouble ↦ by
      rw [escape, escape]
      split <;> rfl
  rw [step, step]
  split
  · exact hescape _
  split
  · split <;> rfl
  · exact hplain _

theorem read_behind : (r.behind words).read q text = (r.read q text).behind words := by
  induction text generalizing r q with
  | nil => rfl
  | cons c text ih => rw [read_cons, read_cons, step_behind, ih]

/-- Where no word is under way, nothing of one is there. -/
theorem cur_read (h : r.hasToken = false → r.cur = []) :
    (r.read q text).hasToken = false → (r.read q text).cur = [] := by
  induction text generalizing r q with
  | nil => exact h
  | cons c text ih =>
    refine ih fun hstep ↦ ?_
    rw [step] at hstep ⊢
    split at hstep
    · rw [escape] at hstep
      split at hstep <;> cases hstep
    rename_i hescaped
    rw [if_neg hescaped]
    split at hstep
    · split at hstep
      · rename_i h'
        rw [if_pos h']
        exact h hstep
      · cases hstep
    · rw [plain] at hstep ⊢
      split at hstep
      · rename_i h'
        rw [if_pos h']
        rw [blank] at hstep ⊢
        split
        · rfl
        · rename_i htoken
          exact h (Bool.eq_false_of_not_eq_true htoken)
      · cases hstep

/-- The first reader has the words of the second, the first one of them behind `cur`. -/
inductive Glued (words : List Str) (cur : Str) : Reader → Reader → Prop
  | word (text : Str) : Glued words cur ⟨words, cur ++ text, true⟩ ⟨[], text, true⟩
  | more (text : Str) (later : List Str) (text' : Str) (hasToken : Bool) :
    Glued words cur ⟨words ++ (cur ++ text) :: later, text', hasToken⟩
      ⟨text :: later, text', hasToken⟩

variable {r' : Reader}

theorem Glued.push (h : Glued words cur r r') (c : Char) :
    Glued words cur (r.push c) (r'.push c) := by
  cases h with
  | word text =>
    rw [Reader.push, Reader.push, List.append_assoc]
    exact .word _
  | more text later text' hasToken => exact .more text later (text' ++ [c]) true

theorem Glued.blank (h : Glued words cur r r') : Glued words cur r.blank r'.blank := by
  cases h with
  | word text => exact .more text [] [] false
  | more text later text' hasToken =>
    cases hasToken with
    | false => exact .more text later text' false
    | true =>
      have hmore : Glued words cur ⟨words ++ (cur ++ text) :: (later ++ [text']), [], false⟩
          ⟨text :: (later ++ [text']), [], false⟩ := .more text _ [] false
      rw [← List.cons_append, ← List.cons_append, ← List.append_assoc] at hmore
      exact hmore

theorem Glued.step (h : Glued words cur r r') (q : Quotes) (c : Char) :
    Glued words cur (r.step q c) (r'.step q c) := by
  rw [Reader.step, Reader.step]
  split
  · rw [escape, escape]
    split
    · exact (h.push '\\').push c
    · exact h.push c
  split
  · split
    · exact h
    · cases h with
      | word text => exact .word text
      | more text later text' hasToken => exact .more text later text' true
  · rw [plain, plain]
    split
    · exact h.blank
    · exact h.push c

theorem Glued.read (h : Glued words cur r r') :
    Glued words cur (r.read q text) (r'.read q text) := by
  induction text generalizing r r' q with
  | nil => exact h
  | cons c text ih => exact ih (h.step q c)

theorem Glued.length_finish (h : Glued words cur r r') :
    r.finish.length = words.length + r'.finish.length := by
  cases h with
  | word text => simp [finish]
  | more text later text' hasToken => cases hasToken <;> simp [finish]

/-- A word under way and a text that goes on with it. -/
theorem glued_read (hc : Text.isWhitespace c = false) (htext : c :: text ≠ ['\\']) :
    Glued words cur (read ⟨words, cur, true⟩ Quotes.start (c :: text))
      (start.read Quotes.start (c :: text)) := by
  have hstart : Glued words cur ⟨words, cur, true⟩ ⟨[], [], true⟩ := by
    have hword : Glued words cur ⟨words, cur ++ [], true⟩ ⟨[], [], true⟩ := .word []
    rwa [List.append_nil] at hword
  rw [read_cons, read_cons]
  by_cases hb : c = '\\'
  · subst hb
    rcases text with - | ⟨next, text⟩
    · exact absurd rfl htext
    exact (Glued.word [next]).read
  refine Glued.read ?_
  rw [step, step, if_neg (by decide), if_neg (by decide)]
  split
  · rename_i q' hquote
    have hq' : q'.escaped = false := by
      rw [Quotes.quote?, if_neg fun h ↦ hb h.1] at hquote
      split_ifs at hquote <;> obtain rfl := Option.some.inj hquote <;> rfl
    rw [if_neg (by rw [hq']; decide), if_neg (by rw [hq']; decide)]
    exact hstart
  · rw [plain, plain, hc]
    exact .word [c]

end Reader

/-- The text `b` does not go on with a word that is under way at the end of `a`. -/
def Free (a b : Str) : Prop :=
  (Reader.start.read Quotes.start a).hasToken = false ∨ b = ['\\'] ∨
    ∀ c ∈ b.head?, Text.isWhitespace c = true

theorem tokenize_of_start (h : quotingAfter Quotes.start a = Quotes.start) :
    tokenize (a ++ b) = ((Reader.start.read Quotes.start a).read Quotes.start b).finish := by
  rw [tokenize_eq_read, Reader.read_append, h]

/-- Words that are apart stay apart. -/
theorem tokenize_append (h : quotingAfter Quotes.start a = Quotes.start) (hfree : Free a b) :
    tokenize (a ++ b) = tokenize a ++ tokenize b := by
  rw [tokenize_of_start h, tokenize_eq_read a, tokenize_eq_read b]
  rw [Free] at hfree
  have hcur : (Reader.start.read Quotes.start a).hasToken = false →
      (Reader.start.read Quotes.start a).cur = [] := Reader.cur_read fun _ ↦ rfl
  generalize Reader.start.read Quotes.start a = r at hfree hcur ⊢
  obtain ⟨words, cur, hasToken⟩ := r
  cases hasToken with
  | false =>
    obtain rfl : cur = [] := hcur rfl
    have hbehind : (⟨words, [], false⟩ : Reader) = Reader.start.behind words := by
      rw [Reader.behind, Reader.start, List.append_nil]
    rw [hbehind, Reader.read_behind, Reader.finish_behind, Reader.finish_behind]
    simp [Reader.finish, Reader.start]
  | true =>
    rcases hfree with hfree | rfl | hblank
    · cases hfree
    · simp [Reader.read_cons, Reader.step, Reader.finish, Reader.start, Quotes.quote?, Quotes.start]
    rcases b with - | ⟨c, b⟩
    · simp [Reader.finish, Reader.start]
    have hstep : ∀ r : Reader, r.step Quotes.start c = r.blank := fun r ↦ by
      have hc : Text.isWhitespace c = true := hblank c rfl
      have hquote : Quotes.start.quote? c = none := by
        rw [Quotes.quote?, if_neg fun h ↦ by rw [h.1] at hc; exact absurd hc (by decide),
          if_neg fun h ↦ by rw [h.1] at hc; exact absurd hc (by decide),
          if_neg fun h ↦ by rw [h.1] at hc; exact absurd hc (by decide)]
      rw [Reader.step, if_neg (by decide), hquote]
      dsimp only
      rw [Reader.plain, hc]
      rfl
    have hbehind : (⟨words, cur, true⟩ : Reader).blank = Reader.start.behind (words ++ [cur]) := by
      rw [Reader.behind, Reader.start, List.append_nil]
      rfl
    have hstart : Reader.start.blank = Reader.start := rfl
    rw [Reader.read_cons, Reader.read_cons, hstep, hstep, hbehind, hstart, Reader.read_behind,
      Reader.finish_behind]
    rfl

/-- Words that are not apart are one word fewer. -/
theorem length_tokenize_append (h : quotingAfter Quotes.start a = Quotes.start)
    (hfree : ¬ Free a b) :
    (tokenize (a ++ b)).length + 1 = (tokenize a).length + (tokenize b).length := by
  rw [tokenize_of_start h, tokenize_eq_read a, tokenize_eq_read b]
  rw [Free, not_or, not_or, Bool.not_eq_false] at hfree
  obtain ⟨htoken, hslash, hblank⟩ := hfree
  generalize Reader.start.read Quotes.start a = r at htoken ⊢
  obtain ⟨words, cur, hasToken⟩ := r
  obtain rfl : hasToken = true := htoken
  rcases b with - | ⟨c, b⟩
  · exact absurd (fun c hc ↦ by cases hc) hblank
  have hc : Text.isWhitespace c = false := by
    by_contra hc
    refine hblank fun c' hc' ↦ ?_
    obtain rfl := Option.some.inj hc'
    rwa [Bool.not_eq_false] at hc
  rw [(Reader.glued_read hc hslash).length_finish]
  simp [Reader.finish]
  omega

/-- No word is under way where a piece ends and the rest goes on with it. -/
def Separated : List Str → Prop
  | [] => True
  | piece :: pieces => Free piece pieces.flatten ∧ Separated pieces

/-- No piece but the last ends in an open quote or behind a backslash. -/
def QuotesClosed (pieces : List Str) : Prop :=
  ∀ piece ∈ pieces.dropLast, quotingAfter Quotes.start piece = Quotes.start

theorem QuotesClosed.tail {next : Str} (h : QuotesClosed (piece :: next :: pieces)) :
    quotingAfter Quotes.start piece = Quotes.start ∧ QuotesClosed (next :: pieces) :=
  List.forall_mem_cons.mp h

theorem length_tokenize_flatten (h : QuotesClosed pieces) :
    (tokenize pieces.flatten).length ≤ (pieces.flatMap tokenize).length := by
  induction pieces with
  | nil => simp [tokenize, tokenizeLoop]
  | cons piece pieces ih =>
    rcases pieces with - | ⟨next, pieces⟩
    · simp
    obtain ⟨hpiece, hpieces⟩ := h.tail
    have hle := ih hpieces
    rw [List.flatten_cons, List.flatMap_cons, List.length_append]
    by_cases hfree : Free piece (next :: pieces).flatten
    · rw [tokenize_append hpiece hfree, List.length_append]
      omega
    · have hlen := length_tokenize_append hpiece hfree
      omega

/-- **When the words of pieces are the words of the whole.** -/
theorem tokenize_flatten_iff (h : QuotesClosed pieces) :
    tokenize pieces.flatten = pieces.flatMap tokenize ↔ Separated pieces := by
  induction pieces with
  | nil => simp [tokenize, tokenizeLoop, Separated]
  | cons piece pieces ih =>
    rcases pieces with - | ⟨next, pieces⟩
    · simp [Separated, Free]
    obtain ⟨hpiece, hpieces⟩ := h.tail
    rw [List.flatten_cons, List.flatMap_cons, Separated]
    by_cases hfree : Free piece (next :: pieces).flatten
    · rw [tokenize_append hpiece hfree, List.append_cancel_left_eq, ih hpieces,
        and_iff_right hfree]
    · refine iff_of_false (fun heq ↦ ?_) fun hapart ↦ hfree hapart.1
      have hlen := length_tokenize_append hpiece hfree
      have hle := length_tokenize_flatten hpieces
      rw [heq, List.length_append] at hlen
      omega

/-! ### The pieces of a stage -/

/-- A redirection as it is written, and the text between it and the next one. -/
structure Cut where
  text : Str
  redirect : Redirect
  piece : Str

/-- The descriptor in front of an operator, if the word it is in is one. -/
def descriptor (word : Option Str) : Str :=
  if word = some ['1'] ∨ word = some ['2'] ∨ word = some ['&'] then word.getD [] else []

/-- The stream that an operator redirects. -/
def redirected (word : Option Str) : Stream :=
  if word = some ['2'] then .stderr else if word = some ['&'] then .both else .stdout

/-- The loop of `split_redirects`, with the text in front of the first redirection and the text
behind each of them kept apart. -/
def cutRedirectsLoop (piece : Str) (word : Option Str) (skip : ℕ) (copy : Bool) (q : Quotes) :
    Str → Except Str (Str × List Cut)
  | [] => .ok (piece, [])
  | c :: rest =>
    match skip with
    | skip + 1 => cutRedirectsLoop (if copy then piece ++ [c] else piece) word skip copy q rest
    | 0 =>
      if q.escaped then cutRedirectsLoop (piece ++ [c]) word 0 true q.unescape rest
      else
        match skipAt q (c :: rest), q.quote? c with
        | some n, _ => cutRedirectsLoop (piece ++ [c]) none (n - 1) true q rest
        | none, some q => cutRedirectsLoop (piece ++ [c]) none 0 true q rest
        | none, none =>
          if c = '>' ∧ q.bare then
            match redirectTarget rest with
            | .error message => .error message
            | .ok (target, n) =>
              (cutRedirectsLoop [] (some []) n false q rest).map fun cut ↦
                (piece.take (piece.length - (descriptor word).length),
                  ⟨descriptor word ++ '>' :: rest.take n, ⟨redirected word, target⟩, cut.1⟩ ::
                    cut.2)
          else if isAsciiWhitespace c ∧ q.bare then
            cutRedirectsLoop (piece ++ [c]) (some []) 0 true q rest
          else cutRedirectsLoop (piece ++ [c]) (word.map (· ++ [c])) 0 true q rest

/-- The text in front of the first redirection of a stage, and what follows it. -/
def cutRedirects (stage : Str) : Except Str (Str × List Cut) :=
  cutRedirectsLoop [] (some []) 0 true Quotes.start stage

variable {word : Option Str} {skip n : ℕ} {copy : Bool} {cuts : List Cut} {first rest : Str}

/-! ### One step of the loop -/

/-- The word that the scan is in behind a character. -/
def wordAfter (word : Option Str) (q : Quotes) (c : Char) (rest : Str) : Option Str :=
  if q.escaped then word
  else
    match skipAt q (c :: rest), q.quote? c with
    | none, none => if isAsciiWhitespace c ∧ q.bare then some [] else word.map (· ++ [c])
    | _, _ => none

theorem splitRedirectsLoop_plain (command : Str) (h : ¬ (c = '>' ∧ q = Quotes.start)) :
    splitRedirectsLoop command word 0 copy q (c :: rest) =
      splitRedirectsLoop (command ++ [c]) (wordAfter word q c rest) (after q (c :: rest) c).1 true
        (after q (c :: rest) c).2 rest := by
  rw [splitRedirectsLoop.eq_def, wordAfter, after]
  dsimp only
  cases hq : q.escaped with
  | true => rfl
  | false =>
    rw [if_neg Bool.false_ne_true, if_neg Bool.false_ne_true, if_neg Bool.false_ne_true]
    rcases skipAt q (c :: rest) with - | n
    · rcases q.quote? c with - | q'
      · dsimp only
        rw [if_neg fun h' ↦ h ⟨h'.1, (bare_iff hq).mp h'.2⟩]
        split_ifs <;> rfl
      · rfl
    · rfl

theorem cutRedirectsLoop_plain (piece : Str) (h : ¬ (c = '>' ∧ q = Quotes.start)) :
    cutRedirectsLoop piece word 0 copy q (c :: rest) =
      cutRedirectsLoop (piece ++ [c]) (wordAfter word q c rest) (after q (c :: rest) c).1 true
        (after q (c :: rest) c).2 rest := by
  rw [cutRedirectsLoop.eq_def, wordAfter, after]
  dsimp only
  cases hq : q.escaped with
  | true => rfl
  | false =>
    rw [if_neg Bool.false_ne_true, if_neg Bool.false_ne_true, if_neg Bool.false_ne_true]
    rcases skipAt q (c :: rest) with - | n
    · rcases q.quote? c with - | q'
      · dsimp only
        rw [if_neg fun h' ↦ h ⟨h'.1, (bare_iff hq).mp h'.2⟩]
        split_ifs <;> rfl
      · rfl
    · rfl

theorem splitRedirectsLoop_redirect (command : Str) :
    splitRedirectsLoop command word 0 copy Quotes.start ('>' :: rest) =
      match redirectTarget rest with
      | .error message => .error message
      | .ok (target, n) =>
        (splitRedirectsLoop (command.take (command.length - (descriptor word).length)) (some []) n
          false Quotes.start rest).map fun split ↦
            (split.1, ⟨redirected word, target⟩ :: split.2) := by
  have hkept : (if word = some ['1'] ∨ word = some ['2'] ∨ word = some ['&'] then
      command.dropLast else command) =
        command.take (command.length - (descriptor word).length) := by
    rw [descriptor]
    split_ifs with hword
    · rcases hword with rfl | rfl | rfl <;> exact List.dropLast_eq_take
    · rw [List.length_nil, Nat.sub_zero, List.take_length]
  rw [splitRedirectsLoop.eq_def]
  dsimp only
  rw [if_neg (by decide), skipAt_ordinary (by decide), quote?_ordinary (by decide)]
  dsimp only
  rw [if_pos ⟨rfl, rfl⟩, hkept]
  rfl

theorem cutRedirectsLoop_redirect (piece : Str) :
    cutRedirectsLoop piece word 0 copy Quotes.start ('>' :: rest) =
      match redirectTarget rest with
      | .error message => .error message
      | .ok (target, n) =>
        (cutRedirectsLoop [] (some []) n false Quotes.start rest).map fun cut ↦
          (piece.take (piece.length - (descriptor word).length),
            ⟨descriptor word ++ '>' :: rest.take n, ⟨redirected word, target⟩, cut.1⟩ ::
              cut.2) := by
  rw [cutRedirectsLoop.eq_def]
  dsimp only
  rw [if_neg (by decide), skipAt_ordinary (by decide), quote?_ordinary (by decide)]
  dsimp only
  rw [if_pos ⟨rfl, rfl⟩]

/-- What the loop knows about the word it is in: the word is at the end of the piece, and nothing is
in a word that is in a region or behind a backslash. -/
structure Tracked (piece : Str) (word : Option Str) (skip : ℕ) (copy : Bool) (q : Quotes) :
    Prop where
  ends : ∀ w ∈ word, w <:+ piece
  skipped : skip ≠ 0 → copy = true → word = none
  escaped : q.escaped = true → word = none

theorem Tracked.start (n : ℕ) : Tracked [] (some []) n false Quotes.start where
  ends w hw := by
    obtain rfl := Option.some.inj hw
    exact List.nil_suffix
  skipped _ h := by cases h
  escaped h := by cases h

theorem Tracked.over (h : Tracked piece word (skip + 1) copy q) (c : Char) :
    Tracked (if copy then piece ++ [c] else piece) word skip copy q where
  ends := by
    cases copy with
    | false => exact h.ends
    | true =>
      intro w hw
      rw [h.skipped (Nat.succ_ne_zero skip) rfl] at hw
      cases hw
  skipped _ := h.skipped (Nat.succ_ne_zero skip)
  escaped := h.escaped

theorem Tracked.step (h : Tracked piece word 0 copy q) (c : Char) (rest : Str) :
    Tracked (piece ++ [c]) (wordAfter word q c rest) (after q (c :: rest) c).1 true
      (after q (c :: rest) c).2 := by
  rw [wordAfter, after]
  cases hq : q.escaped with
  | true =>
    have hword := h.escaped hq
    subst hword
    exact ⟨fun _ h ↦ (Option.not_mem_none _ h).elim, fun _ _ ↦ rfl, fun _ ↦ rfl⟩
  | false =>
    rw [if_neg Bool.false_ne_true, if_neg Bool.false_ne_true]
    rcases skipAt q (c :: rest) with - | n
    · rcases q.quote? c with - | q'
      · refine ⟨fun w hw ↦ ?_, fun hne ↦ absurd rfl hne, fun hesc ↦ ?_⟩
        · dsimp only at hw
          split_ifs at hw
          · obtain rfl := Option.some.inj hw
            exact List.nil_suffix
          · obtain ⟨w, hw', rfl⟩ := Option.mem_map.mp hw
            obtain ⟨init, rfl⟩ := h.ends w hw'
            exact ⟨init, by simp⟩
        · rw [hq] at hesc
          cases hesc
      · exact ⟨fun _ h ↦ (Option.not_mem_none _ h).elim, fun _ _ ↦ rfl, fun _ ↦ rfl⟩
    · exact ⟨fun _ h ↦ (Option.not_mem_none _ h).elim, fun _ _ ↦ rfl, fun _ ↦ rfl⟩

/-- What is left of a piece without the descriptor at its end. -/
theorem take_descriptor (h : ∀ w ∈ word, w <:+ piece) :
    piece.take (piece.length - (descriptor word).length) ++ descriptor word = piece := by
  rw [descriptor]
  split_ifs with hword
  · have hw : word = some (word.getD []) := by
      rcases hword with rfl | rfl | rfl <;> rfl
    obtain ⟨init, hinit⟩ := h _ hw
    rw [← hinit]
    simp
  · simp

/-- **The command text is what is left of the pieces**, and the redirections are those between
them. -/
theorem splitRedirectsLoop_eq (before : Str) (h : Tracked piece word skip copy q) :
    splitRedirectsLoop (before ++ piece) word skip copy q text =
      (cutRedirectsLoop piece word skip copy q text).map fun cut ↦
        (before ++ (cut.1 ++ cut.2.flatMap Cut.piece), cut.2.map Cut.redirect) := by
  induction text generalizing before piece word skip copy q with
  | nil =>
    rw [splitRedirectsLoop, cutRedirectsLoop]
    simp [Except.map]
  | cons c text ih =>
    cases skip with
    | succ skip =>
      have happend : (if copy then before ++ piece ++ [c] else before ++ piece) =
          before ++ (if copy then piece ++ [c] else piece) := by
        cases copy <;> simp
      rw [splitRedirectsLoop, cutRedirectsLoop, happend, ih before (h.over c)]
    | zero =>
      by_cases hredirect : c = '>' ∧ q = Quotes.start
      · obtain ⟨rfl, rfl⟩ := hredirect
        rw [splitRedirectsLoop_redirect, cutRedirectsLoop_redirect]
        rcases redirectTarget text with message | ⟨target, n⟩
        · rfl
        have htake : (before ++ piece).take ((before ++ piece).length - (descriptor word).length) =
            before ++ piece.take (piece.length - (descriptor word).length) := by
          have hle : (descriptor word).length ≤ piece.length := by
            conv_rhs => rw [← take_descriptor h.ends, List.length_append]
            exact Nat.le_add_left ..
          rw [List.length_append, Nat.add_sub_assoc hle, List.take_length_add_append]
        have hrest := ih (q := Quotes.start) (before ++ piece.take (piece.length -
          (descriptor word).length)) (.start n)
        rw [List.append_nil] at hrest
        dsimp only
        rw [htake, hrest]
        rcases cutRedirectsLoop [] (some []) n false Quotes.start text with message | ⟨first, cuts⟩
        · rfl
        · simp [Except.map]
      · rw [splitRedirectsLoop_plain _ hredirect, cutRedirectsLoop_plain _ hredirect,
          List.append_assoc, ih before (h.step c text)]

/-- **The rule of the loop**: what holds of a stage that ends, and is passed on by what is stepped
over, by a redirection and by any other character, holds of the pieces of a stage. -/
theorem cutRedirectsLoop_rule
    {P : Str → Option Str → ℕ → Bool → Quotes → Str → Str → List Cut → Prop}
    (hnil : ∀ piece word skip copy q, P piece word skip copy q [] piece [])
    (hover : ∀ piece word skip copy q c text first cuts,
      P (if copy then piece ++ [c] else piece) word skip copy q text first cuts →
        P piece word (skip + 1) copy q (c :: text) first cuts)
    (hredirect : ∀ piece word copy text target n first cuts,
      redirectTarget text = .ok (target, n) →
        P [] (some []) n false Quotes.start text first cuts →
          P piece word 0 copy Quotes.start ('>' :: text)
            (piece.take (piece.length - (descriptor word).length))
            (⟨descriptor word ++ '>' :: text.take n, ⟨redirected word, target⟩, first⟩ :: cuts))
    (hplain : ∀ piece word copy q c text first cuts, ¬ (c = '>' ∧ q = Quotes.start) →
      P (piece ++ [c]) (wordAfter word q c text) (after q (c :: text) c).1 true
          (after q (c :: text) c).2 text first cuts →
        P piece word 0 copy q (c :: text) first cuts)
    (hcut : cutRedirectsLoop piece word skip copy q text = .ok (first, cuts)) :
    P piece word skip copy q text first cuts := by
  induction text generalizing piece word skip copy q first cuts with
  | nil =>
    rw [cutRedirectsLoop] at hcut
    obtain ⟨rfl, rfl⟩ := Prod.mk.inj (Except.ok.inj hcut)
    exact hnil ..
  | cons c text ih =>
    cases skip with
    | succ skip =>
      rw [cutRedirectsLoop] at hcut
      exact hover _ _ _ _ _ _ _ _ _ (ih hcut)
    | zero =>
      by_cases h : c = '>' ∧ q = Quotes.start
      · obtain ⟨rfl, rfl⟩ := h
        rw [cutRedirectsLoop_redirect] at hcut
        rcases hscan : redirectTarget text with message | ⟨target, n⟩ <;> rw [hscan] at hcut
        · cases hcut
        dsimp only at hcut
        rcases hnext : cutRedirectsLoop [] (some []) n false Quotes.start text with
          message | cut <;> rw [hnext] at hcut
        · cases hcut
        obtain ⟨rfl, rfl⟩ := Prod.mk.inj (Except.ok.inj hcut)
        exact hredirect _ _ _ _ _ _ _ _ hscan (ih hnext)
      · rw [cutRedirectsLoop_plain _ h] at hcut
        exact hplain _ _ _ _ _ _ _ _ h (ih hcut)

/-- **The pieces and the redirections are the stage.** -/
theorem cutRedirectsLoop_text (h : Tracked piece word skip copy q)
    (hcut : cutRedirectsLoop piece word skip copy q text = .ok (first, cuts)) :
    piece ++ (if copy then text else text.drop skip) =
      first ++ cuts.flatMap fun cut ↦ cut.text ++ cut.piece := by
  revert h
  refine cutRedirectsLoop_rule (P := fun piece word skip copy q text first cuts ↦
    Tracked piece word skip copy q → piece ++ (if copy then text else text.drop skip) =
      first ++ cuts.flatMap fun cut ↦ cut.text ++ cut.piece) ?_ ?_ ?_ ?_ hcut
  · intro piece word skip copy q _
    simp
  · intro piece word skip copy q c text first cuts ih h
    rw [← ih (h.over c)]
    cases copy <;> simp
  · intro piece word copy text target n first cuts _ ih h
    have hrest := ih (.start n)
    rw [List.nil_append, if_neg Bool.false_ne_true] at hrest
    have hall : (if copy then '>' :: text else ('>' :: text).drop 0) = '>' :: text := by
      cases copy <;> rfl
    rw [hall, List.flatMap_cons, List.append_assoc, ← hrest]
    conv_lhs => rw [← take_descriptor h.ends]
    simp
  · intro piece word copy q c text first cuts _ ih h
    rw [← ih (h.step c text)]
    cases copy <;> simp

/-! ### Redirections as they are written -/

/-- How the stream of a redirection is written. -/
inductive Descriptor : Str → Stream → Prop
  | default : Descriptor [] .stdout
  | stdout : Descriptor ['1'] .stdout
  | stderr : Descriptor ['2'] .stderr
  | both : Descriptor ['&'] .both

/-- How a redirection is written. -/
inductive Spells : Str → Redirect → Prop
  | file {number blanks path : Str} {stream : Stream} (append : Bool) :
    Descriptor number stream → blanks.all isAsciiWhitespace = true → path ≠ [] →
      Spells (number ++ '>' :: ((if append then ['>'] else []) ++ (blanks ++ path)))
        ⟨stream, .file path append⟩
  | dupOut {number : Str} {stream : Stream} :
    Descriptor number stream → Spells (number ++ ['>', '&', '1']) ⟨stream, .dup .stdout⟩
  | dupErr {number : Str} {stream : Stream} :
    Descriptor number stream → Spells (number ++ ['>', '&', '2']) ⟨stream, .dup .stderr⟩

theorem descriptor_redirected (word : Option Str) :
    Descriptor (descriptor word) (redirected word) := by
  rw [descriptor, redirected]
  by_cases h₁ : word = some ['1']
  · subst h₁
    exact .stdout
  by_cases h₂ : word = some ['2']
  · subst h₂
    exact .stderr
  by_cases h₃ : word = some ['&']
  · subst h₃
    exact .both
  · rw [if_neg (by simp [h₁, h₂, h₃]), if_neg h₂, if_neg h₃]
    exact .default

/-- The blanks in front of a path, and the path. -/
theorem take_path (text : Str) (n : ℕ) :
    text.take (text.length - (text.dropWhile isAsciiWhitespace).length + n) =
      text.takeWhile isAsciiWhitespace ++ (text.dropWhile isAsciiWhitespace).take n := by
  have htext := List.takeWhile_append_dropWhile (p := isAsciiWhitespace) (l := text)
  have hlen : text.length - (text.dropWhile isAsciiWhitespace).length =
      (text.takeWhile isAsciiWhitespace).length := by
    have hlen := congrArg List.length htext
    rw [List.length_append] at hlen
    omega
  rw [hlen]
  exact (congrArg (List.take _) htext.symm).trans (List.take_length_add_append n)

theorem spells_file {number : Str} {stream : Stream} (append : Bool)
    (hnumber : Descriptor number stream)
    (hn : wordEnd 0 Quotes.start (text.dropWhile isAsciiWhitespace) ≠ 0) :
    Spells (number ++ '>' :: ((if append then ['>'] else []) ++
        text.take (text.length - (text.dropWhile isAsciiWhitespace).length +
          wordEnd 0 Quotes.start (text.dropWhile isAsciiWhitespace))))
      ⟨stream, .file ((text.dropWhile isAsciiWhitespace).take
        (wordEnd 0 Quotes.start (text.dropWhile isAsciiWhitespace))) append⟩ := by
  rw [take_path]
  refine .file append hnumber List.all_takeWhile fun hnil ↦ ?_
  rcases List.take_eq_nil_iff.mp hnil with hzero | hnil
  · exact hn hzero
  · rw [hnil] at hn
    exact hn rfl

/-- `&` and a number of one digit. -/
theorem take_number {digit : Char} (hhead : text.head? = some '&')
    (hdigit : (text.drop 1).takeWhile Char.isDigit = [digit]) :
    text.take (0 + 1 + [digit].length) = ['&', digit] := by
  rcases text with - | ⟨c, text⟩
  · cases hhead
  obtain rfl := Option.some.inj hhead
  have hprefix : [digit] <+: text := hdigit ▸ List.takeWhile_prefix _
  obtain ⟨rest, rfl⟩ := hprefix
  rfl

theorem spells_redirectTarget {number : Str} {stream : Stream} {target : Target}
    (hnumber : Descriptor number stream) (h : redirectTarget text = .ok (target, n)) :
    Spells (number ++ '>' :: text.take n) ⟨stream, target⟩ := by
  rw [redirectTarget] at h
  dsimp only at h
  by_cases happend : text.head? = some '>'
  · rcases text with - | ⟨c, text⟩
    · cases happend
    obtain rfl := Option.some.inj happend
    rw [if_neg (by simp), if_pos happend, if_pos happend, List.drop_one, List.tail_cons] at h
    split_ifs at h with hn
    obtain ⟨rfl, rfl⟩ := Prod.mk.inj (Except.ok.inj h)
    have hfile := spells_file true hnumber hn
    rw [Nat.add_assoc, Nat.add_comm 1, List.take_succ_cons]
    simpa using hfile
  · rw [if_neg happend, if_neg happend] at h
    split_ifs at h with hdup hone htwo hn
    · obtain ⟨rfl, rfl⟩ := Prod.mk.inj (Except.ok.inj h)
      rw [hone, take_number hdup.2 hone]
      exact .dupOut hnumber
    · obtain ⟨rfl, rfl⟩ := Prod.mk.inj (Except.ok.inj h)
      rw [htwo, take_number hdup.2 htwo]
      exact .dupErr hnumber
    · obtain ⟨rfl, rfl⟩ := Prod.mk.inj (Except.ok.inj h)
      rw [Nat.zero_add, decide_eq_false happend]
      exact spells_file false hnumber hn

theorem cutRedirectsLoop_spells
    (hcut : cutRedirectsLoop piece word skip copy q text = .ok (first, cuts)) :
    ∀ cut ∈ cuts, Spells cut.text cut.redirect := by
  refine cutRedirectsLoop_rule (P := fun _ _ _ _ _ _ _ cuts ↦
    ∀ cut ∈ cuts, Spells cut.text cut.redirect) ?_ ?_ ?_ ?_ hcut
  · exact fun _ _ _ _ _ _ h ↦ (List.not_mem_nil h).elim
  · exact fun _ _ _ _ _ _ _ _ _ ih ↦ ih
  · intro piece word copy text target n first cuts hscan ih
    exact List.forall_mem_cons.mpr ⟨spells_redirectTarget (descriptor_redirected word) hscan, ih⟩
  · exact fun _ _ _ _ _ _ _ _ _ ih ↦ ih

/-! ### Stages without a substitution -/

theorem after_eq_quotingStep (h : skipAt q (c :: text) = none) :
    after q (c :: text) c = (0, quotingStep q c) := by
  rw [after, quotingStep, h]
  split_ifs
  · rfl
  · rcases q.quote? c with - | q' <;> rfl

/-- Where nothing is stepped over but redirections, the quoting of the scan is that of the piece. -/
structure Quoted (piece : Str) (word : Option Str) (skip : ℕ) (copy : Bool) (q : Quotes) :
    Prop where
  quoting : quotingAfter Quotes.start piece = q
  skipped : skip ≠ 0 → copy = false
  /-- A word without quoting starts outside of quotes. -/
  word : ∀ w ∈ word, ∃ init, piece = init ++ w ∧ quotingAfter Quotes.start init = Quotes.start

theorem Quoted.step (h : Quoted piece word 0 copy q) (htracked : Tracked piece word 0 copy q)
    (hskip : skipAt q (c :: rest) = none) :
    Quoted (piece ++ [c]) (wordAfter word q c rest) 0 true (quotingStep q c) where
  quoting := by
    rw [quotingAfter_append, h.quoting]
    rfl
  skipped hne := absurd rfl hne
  word := by
    rw [wordAfter, hskip]
    by_cases hescaped : q.escaped = true
    · rw [if_pos hescaped, htracked.escaped hescaped]
      exact fun _ h ↦ (Option.not_mem_none _ h).elim
    rw [if_neg hescaped]
    rw [Bool.not_eq_true] at hescaped
    rcases hquote : q.quote? c with - | q'
    · dsimp only
      split_ifs with hblank
      · obtain rfl := (bare_iff hescaped).mp hblank.2
        intro w hw
        obtain rfl := Option.some.inj hw
        refine ⟨piece ++ [c], (List.append_nil _).symm, ?_⟩
        rw [quotingAfter_append, h.quoting]
        show quotingStep Quotes.start c = Quotes.start
        rw [quotingStep, if_neg (by decide), hquote]
        rfl
      · intro w hw
        obtain ⟨w, hw', rfl⟩ := Option.mem_map.mp hw
        obtain ⟨init, rfl, hinit⟩ := h.word w hw'
        exact ⟨init, by simp, hinit⟩
    · exact fun _ h ↦ (Option.not_mem_none _ h).elim

/-- In front of a redirection there is no quoting. -/
theorem Quoted.kept (h : Quoted piece word 0 copy Quotes.start) :
    quotingAfter Quotes.start (piece.take (piece.length - (descriptor word).length)) =
      Quotes.start := by
  rw [descriptor]
  split_ifs with hword
  · have hw : word = some (word.getD []) := by
      rcases hword with rfl | rfl | rfl <;> rfl
    obtain ⟨init, hpiece, hinit⟩ := h.word _ hw
    rw [hpiece, List.length_append, Nat.add_sub_cancel, List.take_left]
    exact hinit
  · rw [List.length_nil, Nat.sub_zero, List.take_length]
    exact h.quoting

theorem cutRedirectsLoop_quotesClosed (hquoted : Quoted piece word skip copy q)
    (htracked : Tracked piece word skip copy q) (htext : ∀ c ∈ text, c ≠ '$' ∧ c ≠ '`')
    (hcut : cutRedirectsLoop piece word skip copy q text = .ok (first, cuts)) :
    QuotesClosed (first :: cuts.map Cut.piece) := by
  revert hquoted htracked htext
  refine cutRedirectsLoop_rule (P := fun piece word skip copy q text first cuts ↦
    Quoted piece word skip copy q → Tracked piece word skip copy q →
      (∀ c ∈ text, c ≠ '$' ∧ c ≠ '`') → QuotesClosed (first :: cuts.map Cut.piece)) ?_ ?_ ?_ ?_ hcut
  · exact fun _ _ _ _ _ _ _ _ _ h ↦ (List.not_mem_nil h).elim
  · intro piece word skip copy q c text first cuts ih hquoted htracked htext
    obtain rfl := hquoted.skipped (Nat.succ_ne_zero skip)
    exact ih ⟨hquoted.quoting, fun _ ↦ rfl, hquoted.word⟩ (htracked.over c)
      (List.forall_mem_cons.mp htext).2
  · intro piece word copy text target n first cuts _ ih hquoted _ htext
    have hstart : Quoted [] (some []) n false Quotes.start :=
      ⟨rfl, fun _ ↦ rfl, fun w hw ↦ ⟨[], by rw [← Option.some.inj hw]; rfl, rfl⟩⟩
    exact List.forall_mem_cons.mpr
      ⟨hquoted.kept, ih hstart (.start n) (List.forall_mem_cons.mp htext).2⟩
  · intro piece word copy q c text first cuts _ ih hquoted htracked htext
    obtain ⟨hc, hrest⟩ := List.forall_mem_cons.mp htext
    have hskip : skipAt q (c :: text) = none := skipAt_of_ne hc.1 hc.2
    have htracked' := htracked.step c text
    rw [after_eq_quotingStep hskip] at htracked' ih
    exact ih (hquoted.step htracked hskip) htracked' hrest

end Interp

end Mimic
