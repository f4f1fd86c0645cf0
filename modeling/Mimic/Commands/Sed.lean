import Mathlib.Data.List.DropRight
import Mimic.Foundation.Occurrences
import Mimic.Shell.State

/-!
# Substitutions of `sed`

`apply_sed_script` (`commands/text.rs`) trims a script, takes the byte behind the `s` for the
delimiter, and slices the rest at byte 2. That is inside of a character if the delimiter is not
ASCII, and the program panics (`Straddles`).

With any other delimiter it does what a script says but for two cases: the trim takes a delimiter
that is whitespace, and what is in front of it, if no flags are behind it; and a `g` behind a
further delimiter is no flag, as in `sgagbgg` (`IsSound`). There it is neither a panic nor another
result, and nowhere else (`applySedScript_iff`).
-/

namespace Mimic

namespace Sed

open Interp (maxCommandOutputBytes)

open Occurrences

variable {script line out pattern replacement flags a b : Str} {delim c d : Char}

/-- `[n..]`: what is behind the first `n` bytes, if a character ends there. -/
def sliceFrom : ℕ → Str → Option Str
  | 0, text => some text
  | _ + 1, [] => none
  | n + 1, c :: text => if c.utf8Size ≤ n + 1 then sliceFrom (n + 1 - c.utf8Size) text else none

inductive SedOutcome
  | unchanged
  | replaced (next : Str)
  | deleted
  | print
  | error (msg : Str)

/-- The number of occurrences that are replaced at most: with `g`, as many as make the line longer
by more than the limit. -/
def limit (line pattern replacement : Str) (global : Bool) : ℕ :=
  if global then
    let grow := Text.byteLen replacement - Text.byteLen pattern
    -- `usize::MAX` is more than a line has
    if grow = 0 then line.length else maxCommandOutputBytes / grow + 1
  else 1

/-- What a substitution does to a line. -/
def substitute (pattern replacement : Str) (global : Bool) (line : Str) : SedOutcome :=
  if pattern = [] then .unchanged
  else if ¬ pattern <:+: line then .unchanged
  else .replaced (replacen pattern replacement (limit line pattern replacement global) line)

/-- `apply_sed_script`, and `none` where it panics. -/
def applySedScript (script line : Str) : Option SedOutcome :=
  let script := Text.trim script
  if script = ['d'] then some .deleted
  else if script = ['p'] then some .print
  else if script.head? ≠ some 's' ∨ Text.byteLen script < 4 then
    some (.error ("sed: -e expression #1, char 1: unknown command: `".toList ++
      script.head?.getD ' ' :: "'\n".toList))
  else do
    -- the delimiter is whatever follows `s`
    let delim := Char.ofNat (← (Text.toUtf8 script)[1]?).toNat
    let body := (← sliceFrom 2 script).splitOn delim
    match body with
    | pattern :: replacement :: more =>
      some (substitute pattern replacement ((more.head?.getD []).contains 'g') line)
    | _ => some (.error "sed: -e expression #1, char 3: unterminated `s' command\n".toList)

/-- The line behind a script that keeps it. -/
def SedOutcome.line? (line : Str) : SedOutcome → Option Str
  | .unchanged | .print => some line
  | .replaced next => some next
  | _ => none

/-! ### What is said of a script -/

/-- `s`, a pattern, a replacement and flags, with delimiters. -/
def substitution (delim : Char) (pattern replacement flags : Str) : Str :=
  's' :: delim :: (pattern ++ delim :: (replacement ++ delim :: flags))

/-- The result is the line with its first occurrence replaced; with `g`, with all of them as long as
it does not get longer by more than the limit. -/
def IsResult (pattern replacement : Str) (global : Prop) (line out : Str) : Prop :=
  ∃ n rest, Replaced pattern replacement n line out rest ∧
    (global → ¬ pattern <:+: rest ∨
      maxCommandOutputBytes < (n + 1) * (Text.byteLen replacement - Text.byteLen pattern)) ∧
    (¬ global → n = 1 ∨ n = 0 ∧ ¬ pattern <:+: line)

/-- A script never panics, and substitutes as its flags say. -/
structure MeetsSpec (script : Str) : Prop where
  safe : ∀ line, applySedScript script line ≠ none
  substitutes : ∀ delim pattern replacement flags,
    script = substitution delim pattern replacement flags → delim ∉ pattern → delim ∉ replacement →
    pattern ≠ [] → ∀ line, ∃ outcome out, applySedScript script line = some outcome ∧
      outcome.line? line = some out ∧ IsResult pattern replacement ('g' ∈ flags) line out

/-- The second byte of a script is inside of a character. -/
def Straddles (script : Str) : Prop :=
  script.head? = some 's' ∧ 4 ≤ Text.byteLen script ∧ ∃ c ∈ script[1]?, 1 < c.utf8Size

/-! ### Reading a script -/

theorem sliceFrom_two {rest : Str} :
    sliceFrom 2 ('s' :: c :: rest) = if c.utf8Size ≤ 1 then some rest else none := by
  have hpos := c.utf8Size_pos
  rw [sliceFrom, if_pos (by decide)]
  show sliceFrom (0 + 1) (c :: rest) = _
  rw [sliceFrom]
  split
  · rw [show 0 + 1 - c.utf8Size = 0 by omega]
    exact sliceFrom.eq_1 rest
  · rfl

/-- The byte behind the `s`, if it is a character. -/
theorem getElem?_toUtf8 (rest : Str) (h : c.utf8Size ≤ 1) :
    ((Text.toUtf8 ('s' :: c :: rest))[1]?).map (fun b ↦ Char.ofNat b.toNat) = some c := by
  have hsize : c.utf8Size = 1 := le_antisymm h c.utf8Size_pos
  have hs : String.utf8EncodeChar 's' = ['s'.val.toUInt8] :=
    String.utf8EncodeChar_eq_singleton (by decide)
  rw [Text.toUtf8, List.flatMap_cons, List.flatMap_cons, hs,
    String.utf8EncodeChar_eq_singleton hsize]
  have hval := Char.utf8Size_eq_one_iff.mp hsize
  rw [UInt32.le_iff_toNat_le] at hval
  have hbyte : c.val.toUInt8.toNat = c.toNat := by
    rw [UInt32.toNat_toUInt8, Char.toNat]
    exact Nat.mod_eq_of_lt (lt_of_le_of_lt hval (by decide))
  show some (Char.ofNat c.val.toUInt8.toNat) = some c
  rw [hbyte, Char.ofNat_toNat]

/-- The pieces of a script behind its delimiter. -/
def bodyOutcome (line : Str) : List Str → SedOutcome
  | pattern :: replacement :: more =>
    substitute pattern replacement ((more.head?.getD []).contains 'g') line
  | _ => .error "sed: -e expression #1, char 3: unterminated `s' command\n".toList

/-- **A script with a delimiter**: it is ASCII, or the program panics. -/
theorem applySedScript_of_trim (line : Str) {rest : Str}
    (htrim : Text.trim script = 's' :: c :: rest) (hlen : 4 ≤ Text.byteLen (Text.trim script)) :
    applySedScript script line =
      if c.utf8Size ≤ 1 then some (bodyOutcome line (rest.splitOn c)) else none := by
  rw [applySedScript, if_neg (by simp [htrim]), if_neg (by simp [htrim]),
    if_neg (not_or.mpr ⟨by simp [htrim], by omega⟩), htrim, sliceFrom_two]
  split
  · rename_i hsize
    obtain ⟨b, hb, hc⟩ := Option.map_eq_some_iff.mp (getElem?_toUtf8 rest hsize)
    rw [hb]
    dsimp only [Option.bind_eq_bind, Option.bind_some]
    rw [hc]
    rcases rest.splitOn c with - | ⟨p, - | ⟨r, more⟩⟩ <;> rfl
  · dsimp only [Option.bind_eq_bind]
    rw [Option.bind_eq_none_iff]
    exact fun _ _ ↦ rfl

/-- The script has a delimiter. -/
def HasDelimiter (script : Str) (c : Char) (rest : Str) : Prop :=
  Text.trim script = 's' :: c :: rest ∧ 4 ≤ Text.byteLen (Text.trim script)

/-- Any other script does not substitute anything, and keeps the line only if it prints it. -/
theorem applySedScript_of_short (line : Str) (h : ∀ c rest, ¬ HasDelimiter script c rest) :
    ∃ outcome, applySedScript script line = some outcome ∧ ∀ out, outcome ≠ .replaced out ∧
      (outcome.line? line = some out → Text.trim script = ['p']) := by
  rw [applySedScript]
  split
  · exact ⟨_, rfl, fun out ↦ ⟨nofun, nofun⟩⟩
  split
  · rename_i hp
    exact ⟨_, rfl, fun out ↦ ⟨nofun, fun _ ↦ hp⟩⟩
  split
  · exact ⟨_, rfl, fun out ↦ ⟨nofun, nofun⟩⟩
  · rename_i hs
    obtain ⟨hhead, hlen⟩ := not_or.mp hs
    rcases htrim : Text.trim script with - | ⟨x, - | ⟨c, rest⟩⟩ <;> rw [not_not, htrim] at hhead <;>
      cases hhead
    · rw [htrim] at hlen
      exact absurd (by decide) hlen
    · exact absurd ⟨htrim, not_lt.mp hlen⟩ (h c rest)

/-- **When a script panics.** -/
theorem applySedScript_eq_none_iff :
    applySedScript script line = none ↔ Straddles (Text.trim script) := by
  by_cases h : ∃ c rest, HasDelimiter script c rest
  · obtain ⟨c, rest, htrim, hlen⟩ := h
    rw [applySedScript_of_trim _ htrim hlen, Straddles]
    have hnext : ∀ x ∈ (Text.trim script)[1]?, x = c := by
      rw [htrim]
      exact fun x hx ↦ (Option.some.inj hx).symm
    split
    · rename_i hsize
      refine iff_of_false nofun ?_
      rintro ⟨-, -, x, hx, hlt⟩
      rw [hnext x hx] at hlt
      omega
    · rename_i hsize
      exact iff_of_true rfl ⟨by rw [htrim]; rfl, hlen, c, by rw [htrim]; rfl, by omega⟩
  · have hshort : ∀ c rest, ¬ HasDelimiter script c rest := fun c rest hd ↦ h ⟨c, rest, hd⟩
    obtain ⟨outcome, houtcome, -⟩ := applySedScript_of_short line hshort
    rw [houtcome]
    refine iff_of_false nofun ?_
    rintro ⟨hhead, hlen, c, hc, -⟩
    rcases htrim : Text.trim script with - | ⟨x, - | ⟨y, rest⟩⟩
    · rw [htrim] at hhead
      cases hhead
    · rw [htrim] at hc
      cases hc
    · rw [htrim] at hhead
      cases hhead
      exact hshort y rest ⟨htrim, hlen⟩

/-- **A script that keeps the line is a substitution**, but for `p`. -/
theorem exists_of_line? {outcome : SedOutcome} (h : applySedScript script line = some outcome)
    (hout : outcome.line? line = some out) (hp : Text.trim script ≠ ['p']) :
    ∃ c rest pattern replacement more, Text.trim script = 's' :: c :: rest ∧
      rest.splitOn c = pattern :: replacement :: more := by
  by_cases hcommand : ∃ c rest, HasDelimiter script c rest
  · obtain ⟨c, rest, htrim, hlen⟩ := hcommand
    rw [applySedScript_of_trim _ htrim hlen] at h
    split at h
    · obtain rfl := Option.some.inj h
      rcases hbody : rest.splitOn c with - | ⟨pattern, - | ⟨replacement, more⟩⟩
      · rw [hbody] at hout
        cases hout
      · rw [hbody] at hout
        cases hout
      · exact ⟨c, rest, pattern, replacement, more, htrim, hbody⟩
    · cases h
  · obtain ⟨outcome', houtcome, hkeeps⟩ := applySedScript_of_short line
      fun c rest hd ↦ hcommand ⟨c, rest, hd⟩
    rw [houtcome] at h
    obtain rfl := Option.some.inj h
    exact absurd ((hkeeps out).2 hout) hp

/-! ### Splitting and trimming -/

/-- The first piece is what is in front of the first separator. -/
theorem splitOn_cases (c : Char) (text : Str) :
    c ∉ text ∧ text.splitOn c = [text] ∨
      ∃ u v, text = u ++ c :: v ∧ c ∉ u ∧ text.splitOn c = u :: v.splitOn c := by
  by_cases h : c ∈ text
  · obtain ⟨u, v, rfl, hu⟩ := List.eq_append_cons_of_mem h
    exact Or.inr ⟨u, v, rfl, hu, List.splitOn_append_cons_self_of_not_mem hu v⟩
  · exact Or.inl ⟨h, List.splitOn_eq_singleton h⟩

theorem head?_splitOn (c : Char) (text : Str) :
    (text.splitOn c).head? = some (text.takeWhile (· ≠ c)) := by
  rcases splitOn_cases c text with ⟨hc, hsplit⟩ | ⟨u, v, rfl, hu, hsplit⟩
  · rw [hsplit,
      List.takeWhile_eq_self_iff.mpr fun x hx ↦ decide_eq_true (ne_of_mem_of_not_mem hx hc)]
    rfl
  · rw [hsplit, List.takeWhile_append_of_pos fun x hx ↦ decide_eq_true (ne_of_mem_of_not_mem hx hu),
      List.takeWhile_cons_of_neg (by simp), List.append_nil]
    rfl

/-- What trims the end of a script. -/
def trimEnd (text : Str) : Str := text.rdropWhile Text.isWhitespace

theorem trimEnd_append (u v : Str) :
    trimEnd (u ++ v) = if trimEnd v = [] then trimEnd u else u ++ trimEnd v := by
  rw [trimEnd, trimEnd, trimEnd, List.rdropWhile, List.reverse_append, List.dropWhile_append]
  split
  · rename_i h
    rw [List.isEmpty_iff] at h
    rw [if_pos (by rw [List.rdropWhile, h, List.reverse_nil])]
    rfl
  · rename_i h
    rw [List.isEmpty_iff] at h
    rw [if_neg (by rwa [List.rdropWhile, List.reverse_eq_nil_iff]), List.reverse_append,
      List.reverse_reverse]
    rfl

theorem trimEnd_eq_nil_iff {text : Str} :
    trimEnd text = [] ↔ ∀ c ∈ text, Text.isWhitespace c = true :=
  List.rdropWhile_eq_nil_iff

/-- The end that is trimmed. -/
theorem exists_trimEnd (text : Str) :
    ∃ w, text = trimEnd text ++ w ∧ ∀ c ∈ w, Text.isWhitespace c = true :=
  ⟨_, List.rdropWhile_append_rtakeWhile.symm, fun _ ↦ List.mem_rtakeWhile_imp⟩

theorem trim_cons (text : Str) : Text.trim ('s' :: text) = 's' :: trimEnd text := by
  have h : Text.trim ('s' :: text) = trimEnd (['s'] ++ text) := rfl
  rw [h, trimEnd_append]
  split
  · rename_i hnil
    rw [hnil]
    rfl
  · rfl

/-! ### Scripts that are as they should be -/

/-- The script is a substitution with these parts. -/
structure Reads (script : Str) (delim : Char) (pattern replacement flags : Str) : Prop where
  eq : script = substitution delim pattern replacement flags
  not_mem_pattern : delim ∉ pattern
  not_mem_replacement : delim ∉ replacement
  ne_nil : pattern ≠ []

/-- No delimiter is cut in two, none is trimmed with what is in front of it, and a `g` that counts
is in front of any further one. -/
structure IsSound (script : Str) : Prop where
  not_straddles : ¬ Straddles (Text.trim script)
  kept : ∀ {delim pattern replacement flags}, Reads script delim pattern replacement flags →
    Text.isWhitespace delim → (∀ c ∈ flags, Text.isWhitespace c) →
      ∃ front x, replacement = front ++ [x] ∧ ¬ Text.isWhitespace x
  flag : ∀ {delim pattern replacement flags}, Reads script delim pattern replacement flags →
    'g' ∈ flags → 'g' ∈ flags.takeWhile (· ≠ delim) ∨ pattern = replacement ∨
      maxCommandOutputBytes < 2 * (Text.byteLen replacement - Text.byteLen pattern)

/-- What is left of a `g` when the end is trimmed. -/
theorem mem_takeWhile_trimEnd (flags : Str) (delim : Char) :
    'g' ∈ (trimEnd flags).takeWhile (· ≠ delim) ↔ 'g' ∈ flags.takeWhile (· ≠ delim) := by
  obtain ⟨w, hw, hspace⟩ := exists_trimEnd flags
  have hg : 'g' ∉ w := fun h ↦ absurd (hspace _ h) (by decide)
  conv_rhs => rw [hw, List.takeWhile_append]
  split
  · rename_i hall
    rw [(List.takeWhile_prefix _).eq_of_length hall, List.mem_append]
    exact ⟨Or.inl, Or.rec id fun h ↦ absurd ((List.takeWhile_prefix _).subset h) hg⟩
  · rfl

/-- **What is trimmed of a substitution**: the end of the flags, or a delimiter that is
whitespace. -/
theorem trim_substitution (pattern : Str)
    (hkept : Text.isWhitespace delim → (∀ c ∈ flags, Text.isWhitespace c) →
      ∃ front x, replacement = front ++ [x] ∧ ¬ Text.isWhitespace x) :
    Text.trim (substitution delim pattern replacement flags) =
        substitution delim pattern replacement (trimEnd flags) ∨
      (∀ c ∈ flags, Text.isWhitespace c) ∧
        Text.trim (substitution delim pattern replacement flags) =
          's' :: delim :: (pattern ++ delim :: replacement) := by
  have hdelim : trimEnd [delim] = if Text.isWhitespace delim then [] else [delim] :=
    List.rdropWhile_singleton _ _
  have happend : delim :: (pattern ++ delim :: (replacement ++ delim :: flags)) =
      delim :: (pattern ++ delim :: replacement) ++ ([delim] ++ flags) := by simp
  rw [substitution, trim_cons, happend, trimEnd_append, trimEnd_append [delim]]
  by_cases hblank : ∀ c ∈ flags, Text.isWhitespace c
  · rw [if_pos (trimEnd_eq_nil_iff.mpr hblank), hdelim]
    by_cases hspace : Text.isWhitespace delim
    · obtain ⟨front, x, rfl, hx⟩ := hkept hspace hblank
      rw [if_pos hspace, if_pos rfl]
      refine Or.inr ⟨hblank, ?_⟩
      have hlast : delim :: (pattern ++ delim :: (front ++ [x])) =
          delim :: (pattern ++ delim :: front) ++ [x] := by simp
      rw [hlast]
      exact congrArg _ (List.rdropWhile_concat_neg _ _ _ hx)
    · rw [if_neg hspace, if_neg (by simp), trimEnd_eq_nil_iff.mpr hblank]
      exact Or.inl (by simp [substitution])
  · have hne : trimEnd flags ≠ [] := fun h ↦ hblank (trimEnd_eq_nil_iff.mp h)
    rw [if_neg hne, if_neg (by simp)]
    exact Or.inl (by simp [substitution])

theorem four_le_byteLen (hne : pattern ≠ []) (tail : Str) :
    4 ≤ Text.byteLen ('s' :: delim :: (pattern ++ delim :: tail)) := by
  obtain ⟨x, pattern, rfl⟩ := List.exists_cons_of_ne_nil hne
  have hs : 's'.utf8Size = 1 := by decide
  have hdelim := delim.utf8Size_pos
  have hx := x.utf8Size_pos
  simp only [Text.byteLen_cons, Text.byteLen_append, List.cons_append]
  omega

/-- What is read of a script: its parts, and whether a `g` is in front of any further delimiter. -/
theorem exists_body (h : Reads script delim pattern replacement flags)
    (hkept : Text.isWhitespace delim → (∀ c ∈ flags, Text.isWhitespace c) →
      ∃ front x, replacement = front ++ [x] ∧ ¬ Text.isWhitespace x) :
    ∃ rest more, Text.trim script = 's' :: delim :: rest ∧ 4 ≤ Text.byteLen (Text.trim script) ∧
      rest.splitOn delim = pattern :: replacement :: more ∧
      ((more.head?.getD []).contains 'g' = true ↔ 'g' ∈ flags.takeWhile (· ≠ delim)) := by
  obtain ⟨rfl, hpattern, hreplacement, hne⟩ := h
  rcases trim_substitution pattern hkept with htrim | ⟨hblank, htrim⟩ <;> rw [htrim]
  · refine ⟨_, (trimEnd flags).splitOn delim, rfl, four_le_byteLen hne _, ?_, ?_⟩
    · rw [List.splitOn_append_cons_self_of_not_mem hpattern,
        List.splitOn_append_cons_self_of_not_mem hreplacement]
    · rw [head?_splitOn, Option.getD_some, List.contains_iff_mem, mem_takeWhile_trimEnd]
  · refine ⟨_, [], rfl, four_le_byteLen hne _, ?_, iff_of_false (by simp) fun hg ↦ ?_⟩
    · rw [List.splitOn_append_cons_self_of_not_mem hpattern,
        List.splitOn_eq_singleton hreplacement]
    · exact absurd (hblank _ ((List.takeWhile_prefix _).subset hg)) (by decide)

theorem limit_spec (line pattern replacement : Str) :
    (hits pattern line).length ≤ limit line pattern replacement true ∨
      maxCommandOutputBytes < (limit line pattern replacement true + 1) *
        (Text.byteLen replacement - Text.byteLen pattern) := by
  rw [limit, if_pos rfl]
  dsimp only
  split
  · exact Or.inl (length_hits_le pattern line)
  · rename_i hgrow
    have hlt := Nat.lt_mul_div_succ maxCommandOutputBytes (Nat.pos_of_ne_zero hgrow)
    refine Or.inr (hlt.trans_le ?_)
    rw [mul_comm]
    exact Nat.mul_le_mul_right _ (Nat.le_succ _)

/-- **What a substitution does** is what is said of it, for the flag it has read. -/
theorem exists_isResult (replacement : Str) (global : Bool) (hp : pattern ≠ []) (line : Str) :
    ∃ out, (substitute pattern replacement global line).line? line = some out ∧
      IsResult pattern replacement (global = true) line out := by
  rw [substitute, if_neg hp]
  by_cases h : pattern <:+: line
  · rw [if_neg (not_not.mpr h)]
    refine ⟨_, rfl, ?_⟩
    obtain ⟨rest, hreplaced, hall⟩ := exists_replaced (b := replacement) hp
      (limit line pattern replacement global) line
    refine ⟨_, rest, hreplaced, ?_, ?_⟩
    · rintro rfl
      rcases limit_spec line pattern replacement with hle | hlt
      · exact Or.inl (hall hle)
      · by_cases hle : (hits pattern line).length ≤ limit line pattern replacement true
        · exact Or.inl (hall hle)
        · rw [Nat.min_eq_left (by omega)]
          exact Or.inr hlt
    · intro hglobal
      obtain ⟨u, rest', rfl, hfirst⟩ := exists_firstAt h
      have hlimit : limit (u ++ (pattern ++ rest')) pattern replacement global = 1 :=
        if_neg hglobal
      rw [hlimit, hits_eq_cons hp hfirst, List.length_cons]
      exact Or.inl (by omega)
  · rw [if_pos h]
    exact ⟨line, rfl, 0, line, .refl line, fun _ ↦ Or.inl h, fun _ ↦ Or.inr ⟨rfl, h⟩⟩

theorem isResult_self (hp : pattern ≠ []) (line : Str) :
    IsResult pattern pattern True line line := by
  obtain ⟨out, -, n, rest, hreplaced, hglobal, -⟩ :=
    exists_isResult pattern true hp line
  rw [hreplaced.eq_self] at hreplaced
  exact ⟨n, rest, hreplaced, fun _ ↦ hglobal rfl, fun h ↦ absurd trivial h⟩

/-- **A sound script does what is said of it.** -/
theorem IsSound.meetsSpec (h : IsSound script) : MeetsSpec script := by
  have hsafe (line : Str) : applySedScript script line ≠ none :=
    fun hnone ↦ h.not_straddles (applySedScript_eq_none_iff.mp hnone)
  refine ⟨hsafe, fun delim pattern replacement flags heq hpat hrep hne line ↦ ?_⟩
  have hreads : Reads script delim pattern replacement flags := ⟨heq, hpat, hrep, hne⟩
  obtain ⟨rest, more, htrim, hlen, hbody, hflag⟩ := exists_body hreads (h.kept hreads)
  have hrun := applySedScript_of_trim line htrim hlen
  have hsize : delim.utf8Size ≤ 1 := by
    by_contra hsize
    exact hsafe line (hrun.trans (if_neg hsize))
  rw [if_pos hsize, hbody] at hrun
  obtain ⟨out, hout, n, rest', hreplaced, hglobal, hfirst⟩ := exists_isResult
    replacement ((more.head?.getD []).contains 'g') hne line
  refine ⟨_, out, hrun, hout, ?_⟩
  rw [hflag] at hglobal hfirst
  by_cases hg : 'g' ∈ flags
  · rcases h.flag hreads hg with hread | rfl | hlimit
    · exact ⟨n, rest', hreplaced, fun _ ↦ hglobal hread, fun h ↦ absurd hg h⟩
    · rw [hreplaced.eq_self, eq_true hg]
      exact isResult_self hne line
    · by_cases hread : 'g' ∈ flags.takeWhile (· ≠ delim)
      · exact ⟨n, rest', hreplaced, fun _ ↦ hglobal hread, fun h ↦ absurd hg h⟩
      · refine ⟨n, rest', hreplaced, fun _ ↦ ?_, fun h ↦ absurd hg h⟩
        rcases hfirst hread with rfl | ⟨rfl, hnone⟩
        · exact Or.inr hlimit
        · cases hreplaced
          exact Or.inl hnone
  · have hread : 'g' ∉ flags.takeWhile (· ≠ delim) :=
      fun h ↦ hg ((List.takeWhile_prefix _).subset h)
    exact ⟨n, rest', hreplaced, fun h ↦ absurd h hg, fun _ ↦ hfirst hread⟩

/-- What a substitution with the flag it has read does to its pattern, in front of `tail`. -/
theorem substitute_append (hp : pattern ≠ []) (tail : Str) :
    substitute pattern replacement false (pattern ++ tail) = .replaced (replacement ++ tail) := by
  have hfirst : FirstAt pattern [] tail := fun i hi ↦ absurd hi (Nat.not_lt_zero i)
  have hreplacen := replacen_succ (b := replacement) (n := 0) hp hfirst
  rw [List.nil_append, List.nil_append] at hreplacen
  rw [substitute, if_neg hp, if_neg (not_not.mpr (List.prefix_append pattern tail).isInfix), limit,
    if_neg (by decide), hreplacen]
  rfl

/-- A delimiter that is whitespace, and no flags: the end of the replacement is trimmed. -/
theorem MeetsSpec.kept (h : MeetsSpec script)
    (hreads : Reads script delim pattern replacement flags)
    (hspace : Text.isWhitespace delim) (hblank : ∀ c ∈ flags, Text.isWhitespace c) :
    ∃ front x, replacement = front ++ [x] ∧ ¬ Text.isWhitespace x := by
  obtain ⟨outcome, out, hrun, hout, n, rest', hreplaced, -, hfirst⟩ :=
    h.substitutes delim pattern replacement flags hreads.eq hreads.not_mem_pattern
      hreads.not_mem_replacement hreads.ne_nil (pattern ++ [])
  have htrim : Text.trim script = 's' :: trimEnd (delim :: (pattern ++ delim :: replacement)) := by
    have happend : delim :: (pattern ++ delim :: (replacement ++ delim :: flags)) =
        delim :: (pattern ++ delim :: replacement) ++ (delim :: flags) := by simp
    rw [hreads.eq, substitution, trim_cons, happend, trimEnd_append, if_pos]
    exact trimEnd_eq_nil_iff.mpr (List.forall_mem_cons.mpr ⟨hspace, hblank⟩)
  have hsplit : delim :: (pattern ++ delim :: replacement) =
      (delim :: pattern ++ [delim]) ++ replacement := by simp
  rw [hsplit, trimEnd_append] at htrim
  split at htrim
  · -- no replacement is left, and no second delimiter
    obtain ⟨c, rest, p, r, more, htrim', hbody⟩ :=
      exists_of_line? hrun hout (by rw [htrim]; simp)
    rw [trimEnd_append, if_pos (trimEnd_eq_nil_iff.mpr (by simpa using hspace)), htrim'] at htrim
    obtain ⟨w, hw, -⟩ := exists_trimEnd (delim :: pattern)
    rw [← List.tail_eq_of_cons_eq htrim, List.cons_append, List.cons.injEq] at hw
    obtain ⟨rfl, rfl⟩ := hw
    rcases splitOn_cases delim rest with ⟨-, hsingle⟩ | ⟨u, v, rfl, -⟩
    · rw [hbody] at hsingle
      cases hsingle
    · exact absurd (by simp) hreads.not_mem_pattern
  · rename_i hne
    obtain ⟨w, hw, -⟩ := exists_trimEnd replacement
    have hnotin : delim ∉ trimEnd replacement := fun hmem ↦
      hreads.not_mem_replacement (hw ▸ List.mem_append_left w hmem)
    have htrim' : Text.trim script = 's' :: delim :: (pattern ++ delim :: trimEnd replacement) := by
      rw [htrim]
      simp
    rw [applySedScript_of_trim _ htrim' (htrim' ▸ four_le_byteLen hreads.ne_nil _),
      List.splitOn_append_cons_self_of_not_mem hreads.not_mem_pattern,
      List.splitOn_eq_singleton hnotin] at hrun
    split at hrun
    · have hcontains : (([] : List Str).head?.getD []).contains 'g' = false := rfl
      rw [bodyOutcome, hcontains, substitute_append hreads.ne_nil] at hrun
      obtain rfl := Option.some.inj hrun
      obtain rfl := Option.some.inj hout
      have hg : 'g' ∉ flags := fun hg ↦ absurd (hblank 'g' hg) (by decide)
      obtain rfl := (hfirst hg).resolve_right fun hnone ↦
        hnone.2 (List.prefix_append pattern []).isInfix
      obtain ⟨out', hout', hreplaced'⟩ := hreplaced.exists_append
      cases hreplaced'
      have heq := List.append_cancel_right hout'
      have hnil : replacement ≠ [] := fun hnil ↦ hne (by rw [heq, hnil])
      exact ⟨_, _, (List.dropLast_append_getLast hnil).symm,
        List.rdropWhile_eq_self_iff.mp heq hnil⟩
    · cases hrun

/-- A `g` behind a further delimiter is not read. -/
theorem MeetsSpec.flag (h : MeetsSpec script)
    (hreads : Reads script delim pattern replacement flags)
    (hg : 'g' ∈ flags) : 'g' ∈ flags.takeWhile (· ≠ delim) ∨ pattern = replacement ∨
      maxCommandOutputBytes < 2 * (Text.byteLen replacement - Text.byteLen pattern) := by
  by_contra hcontra
  obtain ⟨hread, hne, hlimit⟩ := not_or.mp hcontra |>.imp_right not_or.mp
  obtain ⟨outcome, out, hrun, hout, n, rest', hreplaced, hglobal, -⟩ :=
    h.substitutes delim pattern replacement flags hreads.eq hreads.not_mem_pattern
      hreads.not_mem_replacement hreads.ne_nil (pattern ++ pattern)
  obtain ⟨rest, more, htrim, hlen, hbody, hflag⟩ := exists_body hreads (h.kept hreads)
  rw [applySedScript_of_trim _ htrim hlen, hbody] at hrun
  split at hrun
  · have hcontains : (more.head?.getD []).contains 'g' = false :=
      Bool.eq_false_iff.mpr (mt hflag.mp hread)
    rw [bodyOutcome, hcontains, substitute_append hreads.ne_nil] at hrun
    obtain rfl := Option.some.inj hrun
    obtain rfl := Option.some.inj hout
    -- the first of the two is replaced, and nothing says why the second is not
    have hle := hreplaced.mul_length_le
    have hpos := List.length_pos_iff.mpr hreads.ne_nil
    rw [List.length_append] at hle
    have hinfix : pattern <:+: pattern ++ pattern := (List.prefix_append pattern pattern).isInfix
    rcases n with - | n
    · rcases hglobal hg with hnone | hlt
      · exact hnone (hreplaced.eq_of_zero.2 ▸ hinfix)
      · exact hlimit (by omega)
    · obtain ⟨out', hout', hreplaced'⟩ := hreplaced.exists_append
      obtain rfl := List.append_cancel_left hout'
      rcases n with - | n
      · rcases hglobal hg with hnone | hlt
        · exact hnone (hreplaced'.eq_of_zero.2 ▸ List.infix_rfl)
        · exact hlimit hlt
      · obtain rfl : n = 0 := by nlinarith
        have hself : Replaced pattern replacement 1 (pattern ++ []) pattern rest' := by
          rw [List.append_nil]
          exact hreplaced'
        obtain ⟨out', hout', hnone⟩ := hself.exists_append
        rw [hnone.eq_of_zero.1, List.append_nil] at hout'
        exact hne hout'
  · cases hrun

/-- **When a script is run as it is written**: if and only if no delimiter is cut in two, none is
trimmed with what is in front of it, and any `g` that could count is read. -/
theorem applySedScript_iff (script : Str) : MeetsSpec script ↔ IsSound script := by
  refine ⟨fun h ↦ ⟨fun hstraddles ↦ ?_, h.kept, h.flag⟩, IsSound.meetsSpec⟩
  exact h.safe [] (applySedScript_eq_none_iff.mpr hstraddles)

/-- A delimiter that is not ASCII is cut in two. -/
theorem not_meetsSpec_eacute :
    "séaébé".toList = substitution 'é' ['a'] ['b'] [] ∧ ¬ MeetsSpec "séaébé".toList :=
  ⟨rfl, fun h ↦ h.safe ['a'] rfl⟩

end Sed

end Mimic
