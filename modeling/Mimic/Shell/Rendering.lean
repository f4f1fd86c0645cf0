import Mimic.Shell.QuotedWords

/-!
# What is written is what is run

The interpreter does with the text of a command line what its tree says (`execute_text`): the same
words reach the same commands, pipes and files, whatever characters are in the texts that the words
are made of. Nothing in a quoted text is taken for an operator, a comment, a here-document or an
expansion, on any level of substitutions.

What is written between two operators is read by itself (`Enclosed`), so the line is cut into its
pipelines, a pipeline into its commands, and a command into arguments and redirects, and what is
done with each is what the tree says.
-/

namespace Mimic

namespace Syntax

open Mimic.Interp Mimic.Parser Outcomes Pieces

variable {q : Quotes} {c : Char} {text text' rest : Str} {xs ys : List Marked}

/-! ### Commands -/

section Commands

variable {α : Type} {write : α → Str} {host : Host} {below : Level} {inner : α → Run Output}

/-- What a substitution's line is written as: a balanced text, and not an arithmetic one. -/
structure Writes (write : α → Str) : Prop where
  balanced : ∀ line, Balanced (write line)
  head : ∀ line, (write line).head? ≠ some '('

theorem balanced_arg (hwrite : Writes write) (a : Arg α) : Balanced (a.text write) := by
  cases a with
  | word w => exact balanced_word w
  | fields line =>
    intro depth rest
    have hbody := (hwrite.balanced line) (depth + 1) (')' :: rest)
    show closingParen (depth + 1) Quotes.start
      (['$'] ++ '(' :: ((write line ++ [')']) ++ rest)) = _
    rw [passes_plain rfl (quote?_dull (by decide)) (fun _ ↦ by decide) depth]
    rw [List.append_assoc]
    show ((closingParen (depth + 1 + 1) Quotes.start (write line ++ ')' :: rest)).map
      (· + 1)).map _ = _
    rw [hbody]
    show ((((closingParen (depth + 1) Quotes.start rest).map (· + 1)).map _).map _).map _ = _
    rw [Option.map_map, Option.map_map, Option.map_map]
    refine Option.map_congr fun n _ ↦ ?_
    simp only [Function.comp_apply, Arg.text, List.length_append, List.length_cons,
      List.length_nil]
    omega

theorem readingLoop_inside_region (text rest : Str) :
    readingLoop text.length Quotes.start (text ++ rest) =
      text.map (fun c ↦ (c, none)) ++ readingLoop 0 Quotes.start rest := by
  induction text with
  | nil => rfl
  | cons c text ih => exact congrArg _ ih

/-- What is behind the dollar of a substitution. -/
theorem fields_append (line : α) (rest : Str) : (Arg.fields line).text write ++ rest =
    '$' :: (('(' :: write line ++ [')']) ++ rest) := rfl

theorem region_fields (hwrite : Writes write) (line : α) (rest : Str) :
    substitutionAt ('$' :: (('(' :: write line ++ [')']) ++ rest)) =
      some ⟨('(' :: write line ++ [')']).length + 1, some (write line), false⟩ := by
  have hregion := substitutionAt_fields (hwrite.balanced line) (hwrite.head line) rest
  rw [List.cons_append, List.cons_append, List.append_assoc, List.length_cons, List.length_append]
  exact hregion

theorem still_arg (hwrite : Writes write) (a : Arg α) : Still (a.text write) := by
  cases a with
  | word w => exact still_word w
  | fields line =>
    refine ⟨('$', some Quotes.start) :: ('(' :: write line ++ [')']).map fun c ↦ (c, none),
      fun rest ↦ ?_, fun c hc ↦ ?_⟩
    · have hskip : skipAt Quotes.start ('$' :: (('(' :: write line ++ [')']) ++ rest)) =
          some (('(' :: write line ++ [')']).length + 1) :=
        congrArg (Option.map Substitution.length) (region_fields hwrite line rest)
      rw [fields_append, readingLoop_zero, after, hskip]
      exact congrArg _ (readingLoop_inside_region _ rest)
    · rcases List.mem_cons.mp hc with heq | hmem
      · obtain ⟨rfl, -⟩ := Prod.mk.inj heq
        decide
      · obtain ⟨c', -, heq⟩ := List.mem_map.mp hmem
        cases congrArg Prod.snd heq

theorem readLoop_fields (hwrite : Writes write)
    (hinner : ∀ line, below.execute (write line) = inner line) (line : α) (r : Reader)
    (rest : Str) : readLoop host below 0 false false r ((Arg.fields line).text write ++ rest) =
      (capture (inner line) >>= fun v ↦ readLoop host below 0 false false (r.split v) rest) := by
  have hvalue : substitute below (write line) = capture (inner line) := by
    rw [← hinner]
    rfl
  rw [fields_append, readLoop.eq_def]
  simp only [region_fields hwrite, Bool.false_eq_true, if_false, Nat.add_sub_cancel,
    readLoop_skip]
  rw [← hvalue]
  rfl

theorem sliceable_arg {classes : Arith.CharClasses} (hwrite : Writes write) (a : Arg α)
    (rest : Str) : sliceable classes 0 false false (a.text write ++ rest) =
      sliceable classes 0 false false rest := by
  cases a with
  | word w => exact sliceable_word w rest
  | fields line =>
    rw [fields_append, sliceable.eq_def]
    simp only [region_fields hwrite, Bool.false_eq_true, if_false, Nat.add_sub_cancel,
      sliceable_skip, Option.isSome_some, Bool.true_and]

theorem sliceable_blank {classes : Arith.CharClasses} :
    sliceable classes 0 false false (' ' :: rest) = sliceable classes 0 false false rest := by
  rw [sliceable.eq_def]
  simp [substitutionAt_of_ne]

theorem sliceable_args {classes : Arith.CharClasses} (hwrite : Writes write) (args : List (Arg α))
    (n : ℕ) : sliceable classes 0 false false
      ((args.flatMap fun a ↦ ' ' :: a.text write) ++ List.replicate n ' ') = true := by
  induction args with
  | nil =>
    induction n with
    | zero => rfl
    | succ n ih => exact sliceable_blank.trans ih
  | cons a args ih =>
    rw [List.flatMap_cons, List.cons_append, List.cons_append, List.append_assoc, sliceable_blank,
      sliceable_arg hwrite, ih]

/-- The arguments of a command, one after the other. -/
theorem readLoop_args (hwrite : Writes write)
    (hinner : ∀ line, below.execute (write line) = inner line) (args : List (Arg α)) (n : ℕ)
    {r : Reader} (hr : Tidy r) :
    readLoop host below 0 false false r
        ((args.flatMap fun a ↦ ' ' :: a.text write) ++ List.replicate n ' ') =
      (argWords inner args >>= fun words ↦ pure (r.finish ++ words)) := by
  induction args generalizing r with
  | nil =>
    rw [argWords, pure_bind, List.append_nil]
    exact readLoop_blanks hr n
  | cons a args ih =>
    rw [List.flatMap_cons, List.cons_append, List.cons_append, List.append_assoc, readLoop_blank,
      blank_eq hr, argWords, bind_assoc]
    cases a with
    | word w =>
      refine (readLoop_word _ w _).trans ?_
      rw [Arg.words, bind_assoc]
      refine congrArg _ (funext fun v ↦ ?_)
      rw [ih fun h ↦ absurd (show true = false from h) (by decide), pure_bind, bind_assoc]
      refine congrArg _ (funext fun words ↦ ?_)
      rw [pure_bind, ← List.append_assoc]
      rfl
    | fields line =>
      refine (readLoop_fields hwrite hinner line _ _).trans ?_
      rw [Arg.words, bind_assoc]
      refine congrArg _ (funext fun v ↦ ?_)
      rw [ih (tidy_split (fun _ ↦ rfl) v), pure_bind, bind_assoc, finish_fields]
      refine congrArg _ (funext fun words ↦ ?_)
      rw [pure_bind, List.append_assoc]

/-- **The words of a command are those of its arguments.** -/
theorem parseLine_args (hwrite : Writes write)
    (hinner : ∀ line, below.execute (write line) = inner line) (args : List (Arg α)) (n : ℕ) :
    parseLine host below ((args.flatMap fun a ↦ ' ' :: a.text write) ++ List.replicate n ' ') =
      argWords inner args := by
  rw [parseLine_eq, expandLoop_reads 0 false false _ .start rfl (sliceable_args hwrite args n),
    readLoop_args hwrite hinner args n fun _ ↦ rfl]
  exact bind_pure _

/-- A word is read as one. -/
theorem parseLine_word (w : Word) :
    parseLine host below (Word.text w) = (Word.value w >>= fun v ↦ pure [v]) := by
  have hslice : sliceable host.classes 0 false false (Word.text w) = true := by
    have hword : sliceable host.classes 0 false false (Word.text w ++ []) = _ := sliceable_word w []
    rw [List.append_nil] at hword
    exact hword
  have hread : readLoop host below 0 false false ⟨[], [], false⟩ (Word.text w ++ []) = _ :=
    readLoop_word [] w []
  rw [List.append_nil] at hread
  rw [parseLine_eq, expandLoop_reads 0 false false _ .start rfl hslice]
  exact hread

/-! ### Redirects -/

/-- A redirect as `split_redirects` finds it. -/
def Redirection.redirect : Redirection → Redirect
  | file stream target append => ⟨stream, .file (Word.text target) append⟩
  | errToOut => ⟨.stderr, .dup .stdout⟩
  | outToErr => ⟨.stdout, .dup .stderr⟩

/-- Nothing, or a blank first. -/
def Apart (text : Str) : Prop := ∀ c ∈ text.head?, c = ' '

/-- A word ends where a blank comes. -/
theorem wordEnd_word (w : Word) (hrest : Apart rest) :
    wordEnd 0 Quotes.start (Word.text w ++ rest) = (Word.text w).length := by
  obtain ⟨xs, hxs, hstill⟩ := still_word w
  have hgo : ∀ x ∈ xs, (!stopsWord x) = true := fun x hx ↦ by
    rw [Bool.not_eq_true', ← Bool.not_eq_true]
    intro hstop
    rcases x with ⟨c, - | q⟩
    · cases hstop
    · have hordinary := isOrdinary_of_stopsWord hstop
      obtain ⟨-, rfl⟩ := stopsWord_iff.mp hstop
      rw [hstill c hx] at hordinary
      cases hordinary
  have hstop : (readingLoop 0 Quotes.start rest).takeWhile (fun x ↦ !stopsWord x) = [] := by
    rcases rest with - | ⟨c, rest⟩
    · rfl
    · obtain rfl := hrest c rfl
      rw [readingLoop_zero, List.takeWhile_cons_of_neg (by decide)]
  rw [wordEnd_eq, hxs, List.takeWhile_append_of_pos hgo, hstop, List.append_nil, ← hxs.plain, plain,
    List.length_map]

/-- What is behind a `>`, or the second of two. -/
theorem redirectTarget_word (append : Bool) (w : Word) (hrest : Apart rest) :
    redirectTarget ((if append then ['>'] else []) ++ (Word.text w ++ rest)) =
      .ok (.file (Word.text w) append, ((if append then ['>'] else []) ++ Word.text w).length) := by
  have hend := wordEnd_word w hrest
  have hblank : (Word.text w ++ rest).dropWhile isAsciiWhitespace = Word.text w ++ rest := rfl
  have hpos : (Word.text w).length ≠ 0 := Nat.succ_ne_zero _
  have hhead : (Word.text w ++ rest).head? = some '\'' := rfl
  have htake : (Word.text w ++ rest).take (Word.text w).length = Word.text w := List.take_left
  cases append with
  | true =>
    rw [redirectTarget]
    simp [hblank, hend, hpos, htake, Nat.add_comm]
  | false =>
    rw [redirectTarget]
    simp [hblank, hend, hpos, htake, hhead]

/-- One digit. -/
theorem takeWhile_isDigit (hc : c.isDigit = true) (hrest : Apart rest) :
    (c :: rest).takeWhile Char.isDigit = [c] := by
  rw [List.takeWhile_cons_of_pos hc]
  rcases rest with - | ⟨c', rest⟩
  · rfl
  · obtain rfl := hrest c' rfl
    rw [List.takeWhile_cons_of_neg (by decide)]

theorem redirectTarget_out (hrest : Apart rest) :
    redirectTarget (['&', '1'] ++ rest) = .ok (.dup .stdout, ['&', '1'].length) := by
  have hnumber : ('1' :: rest).takeWhile Char.isDigit = ['1'] := takeWhile_isDigit (by decide) hrest
  rw [redirectTarget]
  simp [hnumber]

theorem redirectTarget_err (hrest : Apart rest) :
    redirectTarget (['&', '2'] ++ rest) = .ok (.dup .stderr, ['&', '2'].length) := by
  have hnumber : ('2' :: rest).takeWhile Char.isDigit = ['2'] := takeWhile_isDigit (by decide) hrest
  rw [redirectTarget]
  simp [hnumber]

theorem splitRedirectsLoop_uncopied (command : Str) (word : Option Str) (text : Str) :
    splitRedirectsLoop command word 0 false q text =
      splitRedirectsLoop command word 0 true q text := by
  cases text <;> rfl

theorem splitRedirectsLoop_skip (command : Str) (word : Option Str) :
    splitRedirectsLoop command word text.length false q (text ++ rest) =
      splitRedirectsLoop command word 0 true q rest := by
  induction text with
  | nil => exact splitRedirectsLoop_uncopied command word rest
  | cons c text ih => exact ih

theorem splitRedirectsLoop_blank (command : Str) (word : Option Str) :
    splitRedirectsLoop command word 0 true Quotes.start (' ' :: rest) =
      splitRedirectsLoop (command ++ [' ']) (some []) 0 true Quotes.start rest := by
  rw [splitRedirectsLoop_plain command (by decide), after_ordinary (by decide), wordAfter,
    skipAt_ordinary (by decide), quote?_ordinary (by decide)]
  rfl

/-- The descriptor in front of an operator becomes the word that the scan is in. -/
theorem splitRedirectsLoop_descriptor (command : Str) (stream : Stream) (text : Str) :
    splitRedirectsLoop command (some []) 0 true Quotes.start (descriptorText stream ++ text) =
      splitRedirectsLoop (command ++ descriptorText stream) (some (descriptorText stream)) 0 true
        Quotes.start text := by
  cases stream with
  | stdout => rw [descriptorText, List.append_nil, List.nil_append]
  | stderr =>
    show splitRedirectsLoop command (some []) 0 true Quotes.start ('2' :: text) = _
    rw [splitRedirectsLoop_plain command (by decide), after_ordinary (by decide), wordAfter,
      skipAt_ordinary (by decide), quote?_ordinary (by decide)]
    rfl
  | both =>
    show splitRedirectsLoop command (some []) 0 true Quotes.start ('&' :: text) = _
    rw [splitRedirectsLoop_plain command (by decide), after_ordinary (by decide), wordAfter,
      skipAt_ordinary (by decide), quote?_ordinary (by decide)]
    rfl

/-- An operator with its descriptor in front and its target behind. -/
theorem splitRedirectsLoop_operator (command : Str) (word : Option Str) (stream : Stream)
    {target : Target} (htarget : redirectTarget (text ++ rest) = .ok (target, text.length)) :
    splitRedirectsLoop command word 0 true Quotes.start
        (' ' :: descriptorText stream ++ '>' :: (text ++ rest)) =
      (splitRedirectsLoop (command ++ [' ']) (some []) 0 true Quotes.start rest).map fun split ↦
        (split.1, ⟨stream, target⟩ :: split.2) := by
  have hstream : descriptor (some (descriptorText stream)) = descriptorText stream ∧
      redirected (some (descriptorText stream)) = stream := by cases stream <;> decide
  have hkept : (command ++ [' '] ++ descriptorText stream).take
      ((command ++ [' '] ++ descriptorText stream).length - (descriptorText stream).length) =
        command ++ [' '] := by
    have hlen : (command ++ [' '] ++ descriptorText stream).length =
        (command ++ [' ']).length + (descriptorText stream).length := List.length_append
    rw [hlen, Nat.add_sub_cancel, List.take_left]
  rw [List.cons_append, splitRedirectsLoop_blank, splitRedirectsLoop_descriptor,
    splitRedirectsLoop_redirect, htarget, hstream.1, hstream.2, hkept]
  show Except.map _ (splitRedirectsLoop _ _ _ _ _ _) = _
  rw [splitRedirectsLoop_skip]

theorem splitRedirectsLoop_redirection (command : Str) (word : Option Str) (r : Redirection)
    (hrest : Apart rest) :
    splitRedirectsLoop command word 0 true Quotes.start (r.text ++ rest) =
      (splitRedirectsLoop (command ++ [' ']) (some []) 0 true Quotes.start rest).map fun split ↦
        (split.1, r.redirect :: split.2) := by
  cases r with
  | file stream target append =>
    have htarget := redirectTarget_word append target hrest
    rw [← List.append_assoc] at htarget
    refine Eq.trans ?_ (splitRedirectsLoop_operator command word stream htarget)
    refine congrArg (splitRedirectsLoop command word 0 true Quotes.start) ?_
    rw [Redirection.text]
    cases append <;> simp
  | errToOut => exact splitRedirectsLoop_operator command word .stderr (redirectTarget_out hrest)
  | outToErr => exact splitRedirectsLoop_operator command word .stdout (redirectTarget_err hrest)

/-- The redirects behind the arguments of a command. -/
theorem splitRedirectsLoop_redirections (command : Str) (word : Option Str)
    (redirects : List Redirection) :
    splitRedirectsLoop command word 0 true Quotes.start (redirects.flatMap Redirection.text) =
      .ok (command ++ List.replicate redirects.length ' ', redirects.map Redirection.redirect) := by
  induction redirects generalizing command word with
  | nil => exact congrArg (fun text ↦ Except.ok (text, [])) (List.append_nil command).symm
  | cons r redirects ih =>
    have hrest : Apart (redirects.flatMap Redirection.text) := by
      rcases redirects with - | ⟨r', redirects⟩
      · exact fun c hc ↦ by cases hc
      · rw [List.flatMap_cons]
        cases r' <;> exact fun c hc ↦ (Option.some.inj hc).symm
    rw [List.flatMap_cons, splitRedirectsLoop_redirection command word r hrest, ih,
      List.append_assoc]
    rfl

/-! ### Pipelines and lines -/

/-- What is written between operators: nothing in it is read as a comment, a here-document, or the
end of a segment. -/
structure Enclosed (text : Str) (xs : List Marked) : Prop where
  reads : Reads text xs
  hash : ('#', some Quotes.start) ∉ xs
  heredoc : ('<', some Quotes.start) ∉ xs
  segment : Whole separator xs

theorem Enclosed.append (h : Enclosed text xs) (h' : Enclosed text' ys) :
    Enclosed (text ++ text') (xs ++ ys) where
  reads := h.reads.append h'.reads
  hash hmem := (List.mem_append.mp hmem).elim h.hash h'.hash
  heredoc hmem := (List.mem_append.mp hmem).elim h.heredoc h'.heredoc
  segment := h.segment.append h'.segment

/-- What is written between pipes. -/
def Staged (text : Str) : Prop := ∃ xs, Enclosed text xs ∧ Whole pipe xs

theorem staged_nil : Staged [] :=
  ⟨[], ⟨fun _ ↦ rfl, List.not_mem_nil, List.not_mem_nil, whole_nil⟩, whole_nil⟩

theorem Staged.append (h : Staged text) (h' : Staged text') : Staged (text ++ text') := by
  obtain ⟨xs, hxs, hpipe⟩ := h
  obtain ⟨ys, hys, hpipe'⟩ := h'
  exact ⟨xs ++ ys, hxs.append hys, hpipe.append hpipe'⟩

theorem staged_flatMap {β : Type} {f : β → Str} (items : List β)
    (h : ∀ x ∈ items, Staged (f x)) : Staged (items.flatMap f) := by
  induction items with
  | nil => exact staged_nil
  | cons x items ih =>
    rw [List.flatMap_cons]
    exact (h x List.mem_cons_self).append (ih fun y hy ↦ h y (List.mem_cons_of_mem x hy))

/-- No operator starts with such a character. -/
theorem separator_eq_none_of_head {x : Marked}
    (hx : ∀ c, x = (c, some Quotes.start) → c ≠ ';' ∧ c ≠ '&' ∧ c ≠ '|') :
    separator (x :: xs) = none := by
  refine separator_eq_none fun kind h ↦ ?_
  rcases x with ⟨c, m⟩
  obtain ⟨hc, rfl⟩ := symbols_of_bare h
  obtain ⟨hsemi, hamp, hbar⟩ := hx c rfl
  rcases hc with rfl | rfl | rfl
  · exact hsemi rfl
  · exact hamp rfl
  · exact hbar rfl

theorem pipe_eq_none_of_head {x : Marked} (hx : x ≠ ('|', some Quotes.start)) :
    pipe (x :: xs) = none := by
  refine if_neg fun h ↦ hx ?_
  obtain ⟨hc, hm⟩ := bare_singleton_iff.mp h
  exact Prod.ext hc hm

theorem Still.staged (h : Still text) : Staged text := by
  obtain ⟨xs, hxs, hstill⟩ := h
  have hnot : ∀ c, isOrdinary c = true → (c, some Quotes.start) ∉ xs := fun c hc hmem ↦ by
    rw [hstill c hmem] at hc
    cases hc
  refine ⟨xs, ⟨hxs, hnot '#' (by decide), hnot '<' (by decide), fun ys hys hne zs ↦ ?_⟩,
    fun ys hys hne zs ↦ ?_⟩
  · rcases ys with - | ⟨x, ys⟩
    · exact absurd rfl hne
    refine separator_eq_none_of_head fun c hx ↦ ?_
    have hmem : (c, some Quotes.start) ∈ xs := hx ▸ hys.subset List.mem_cons_self
    refine ⟨?_, ?_, ?_⟩ <;> rintro rfl <;> exact hnot _ (by decide) hmem
  · rcases ys with - | ⟨x, ys⟩
    · exact absurd rfl hne
    refine pipe_eq_none_of_head fun hx ↦ ?_
    exact hnot '|' (by decide) (hx ▸ hys.subset List.mem_cons_self)

/-- A character of a redirect, or a blank. -/
theorem staged_cons (hordinary : isOrdinary c = true)
    (hc : c ≠ '#' ∧ c ≠ '<' ∧ c ≠ ';' ∧ c ≠ '&' ∧ c ≠ '|') (h : Staged text) :
    Staged (c :: text) := by
  obtain ⟨xs, hxs, hpipe⟩ := h
  have hhead : ∀ c', (c, some Quotes.start) = (c', some Quotes.start) → c = c' := fun c' heq ↦
    congrArg Prod.fst heq
  refine ⟨(c, some Quotes.start) :: xs, ⟨(reads_char hordinary).append hxs.reads, ?_, ?_,
    hxs.segment.cons fun zs ↦ ?_⟩, hpipe.cons fun zs ↦ ?_⟩
  · exact fun hmem ↦ (List.mem_cons.mp hmem).elim (fun heq ↦ hc.1 (hhead _ heq.symm)) hxs.hash
  · exact fun hmem ↦ (List.mem_cons.mp hmem).elim (fun heq ↦ hc.2.1 (hhead _ heq.symm)) hxs.heredoc
  · exact separator_eq_none_of_head fun c' heq ↦ hhead c' heq ▸ hc.2.2
  · exact pipe_eq_none_of_head fun heq ↦ hc.2.2.2.2 (hhead _ heq)

/-- The reading starts with the first character. -/
theorem Reads.head (h : Reads (c :: text) xs) : ∃ ys, xs = (c, some Quotes.start) :: ys := by
  have hreading := h.reading
  rw [Parser.reading, readingLoop_zero] at hreading
  exact ⟨_, hreading.symm⟩

/-- An ampersand, in front of something else. -/
theorem staged_ampersand (hc : c ≠ '&') (h : Staged (c :: text)) : Staged ('&' :: c :: text) := by
  obtain ⟨xs, hxs, hpipe⟩ := h
  obtain ⟨ys, rfl⟩ := hxs.reads.head
  refine ⟨('&', some Quotes.start) :: (c, some Quotes.start) :: ys,
    ⟨(reads_char (c := '&') (by decide)).append hxs.reads, ?_, ?_,
      hxs.segment.cons fun zs ↦ ?_⟩, hpipe.cons fun zs ↦ ?_⟩
  · exact fun hmem ↦ (List.mem_cons.mp hmem).elim (fun heq ↦ by cases heq) hxs.hash
  · exact fun hmem ↦ (List.mem_cons.mp hmem).elim (fun heq ↦ by cases heq) hxs.heredoc
  · refine separator_eq_none fun kind ↦ ?_
    cases kind <;> simp [Separator.symbols, bare, Ne.symm hc]
  · exact pipe_eq_none_of_head (by simp)

theorem staged_redirection (r : Redirection) : Staged r.text := by
  cases r with
  | file stream target append =>
    have htarget : Staged ('>' :: Word.text target) :=
      staged_cons (by decide) (by decide) (still_word target).staged
    have hoperator : Staged ('>' :: (if append then ['>'] else []) ++ Word.text target) := by
      cases append with
      | true => exact staged_cons (by decide) (by decide) htarget
      | false => exact htarget
    have hall : Staged (descriptorText stream ++
        ('>' :: (if append then ['>'] else []) ++ Word.text target)) := by
      cases stream with
      | stdout => exact hoperator
      | stderr => exact staged_cons (by decide) (by decide) hoperator
      | both => exact staged_ampersand (by decide) hoperator
    have hblank := staged_cons (c := ' ') (by decide) (by decide) hall
    rw [Redirection.text]
    cases append <;> simpa using hblank
  | errToOut =>
    exact staged_cons (by decide) (by decide) (staged_cons (by decide) (by decide)
      (staged_cons (by decide) (by decide) (staged_ampersand (by decide)
        (staged_cons (by decide) (by decide) staged_nil))))
  | outToErr =>
    exact staged_cons (by decide) (by decide) (staged_cons (by decide) (by decide)
      (staged_ampersand (by decide) (staged_cons (by decide) (by decide) staged_nil)))

theorem staged_command (hwrite : Writes write) (c : Command α) : Staged (c.text write) :=
  (staged_flatMap c.args fun a _ ↦ staged_cons (by decide) (by decide)
    (still_arg hwrite a).staged).append
      (staged_flatMap c.redirects fun r _ ↦ staged_redirection r)

theorem Staged.enclosed (h : Staged text) : Enclosed text (reading text) := by
  obtain ⟨xs, hxs, -⟩ := h
  rwa [hxs.reads.reading]

theorem Staged.whole (h : Staged text) : Whole pipe (reading text) := by
  obtain ⟨xs, hxs, hpipe⟩ := h
  rwa [hxs.reads.reading]

/-- A command starts with a blank. -/
theorem command_head (c : Command α) : ∃ rest, c.text write = ' ' :: rest := by
  rw [Command.text]
  rcases c with ⟨- | ⟨a, args⟩, - | ⟨r, redirects⟩, hne⟩
  · exact hne.elim (absurd rfl) (absurd rfl)
  · rcases r with ⟨stream, target, append⟩ | - | - <;> exact ⟨_, rfl⟩
  · exact ⟨_, rfl⟩
  · exact ⟨_, rfl⟩

theorem enclosed_flatMap {β : Type} {f : β → Str} {g : β → List Marked} (items : List β)
    (h : ∀ x ∈ items, Enclosed (f x) (g x)) : Enclosed (items.flatMap f) (items.flatMap g) := by
  induction items with
  | nil => exact ⟨fun _ ↦ rfl, List.not_mem_nil, List.not_mem_nil, whole_nil⟩
  | cons x items ih =>
    rw [List.flatMap_cons, List.flatMap_cons]
    exact (h x List.mem_cons_self).append (ih fun y hy ↦ h y (List.mem_cons_of_mem x hy))

/-- A pipe and the command behind it. -/
theorem enclosed_pipe (hwrite : Writes write) (c : Command α) :
    Enclosed ('|' :: c.text write) (bare ['|'] ++ reading (c.text write)) := by
  have hc := (staged_command hwrite c).enclosed
  obtain ⟨rest, hrest⟩ : ∃ rest, c.text write = ' ' :: rest := command_head c
  rw [hrest] at hc ⊢
  obtain ⟨ys, hys⟩ := hc.reads.head
  rw [hys] at hc ⊢
  refine ⟨(reads_char (c := '|') (by decide)).append hc.reads, ?_, ?_,
    hc.segment.cons fun zs ↦ separator_eq_none fun kind ↦ ?_⟩
  · exact fun hmem ↦ (List.mem_cons.mp hmem).elim (fun heq ↦ by cases heq) hc.hash
  · exact fun hmem ↦ (List.mem_cons.mp hmem).elim (fun heq ↦ by cases heq) hc.heredoc
  · cases kind <;> simp [Separator.symbols, bare]

theorem balanced_redirection (r : Redirection) : Balanced r.text := by
  cases r with
  | file stream target append =>
    have hoperator : Balanced (if append then ['>', '>'] else ['>']) := by
      cases append <;> exact balanced_all (by decide)
    have hdescriptor : Balanced (' ' :: descriptorText stream) := by
      cases stream <;> exact balanced_all (by decide)
    exact (hdescriptor.append hoperator).append (balanced_word target)
  | errToOut => exact balanced_all (by decide)
  | outToErr => exact balanced_all (by decide)

/-- The readings of a pipeline's commands. -/
def Pipeline.readings (write : α → Str) (p : Pipeline α) : List (Unit × List Marked) :=
  (p.first :: p.rest).map fun c ↦ ((), reading (c.text write))

theorem enclosed_pipeline (hwrite : Writes write) (p : Pipeline α) :
    Enclosed (p.text write) (join pipeText (p.readings write)) := by
  have hrest := enclosed_flatMap p.rest fun c _ ↦ enclosed_pipe hwrite c
  have hall := (staged_command hwrite p.first).enclosed.append hrest
  rw [Pipeline.readings, List.map_cons, join, joinTail, List.flatMap_map]
  exact hall

/-- **A pipeline is cut into its commands.** -/
theorem splitPipeline_text (hwrite : Writes write) (p : Pipeline α) :
    splitPipeline (p.text write) = (p.first :: p.rest).map (Command.text write) := by
  have hreading := (enclosed_pipeline hwrite p).reads.reading
  have hsplit : split pipeText pipe () (join pipeText (p.readings write)) =
      p.readings write := by
    refine split_join cuts_pipe (fun _ zs ↦ if_pos (List.prefix_append _ zs))
      (staged_command hwrite p.first).whole fun piece hpiece ↦ ?_
    obtain ⟨c, -, rfl⟩ := List.mem_map.mp hpiece
    exact (staged_command hwrite c).whole
  rw [splitPipeline, splitPipelineLoop_eq]
  show (split pipeText pipe () (reading (p.text write))).map _ = _
  rw [hreading, hsplit, Pipeline.readings, List.map_map]
  exact List.map_congr_left fun c _ ↦ plain_readingLoop 0 Quotes.start _

/-- An operator and the pipeline behind it. -/
theorem reads_operator (hwrite : Writes write) (kind : Separator) (p : Pipeline α) :
    Reads (kind.symbols ++ p.text write) (separatorText kind ++ reading (p.text write)) := by
  have hp := (enclosed_pipeline hwrite p).reads
  rw [hp.reading]
  exact (reads_bare (by cases kind <;> decide)).append hp

/-- The readings of a line's pipelines. -/
def LineOf.readings (write : α → Str) (line : LineOf α) : List (Separator × List Marked) :=
  ((.always, line.first) :: line.rest).map fun p ↦ (p.1, reading (p.2.text write))

theorem reads_flatMap {β : Type} {f : β → Str} {g : β → List Marked} (items : List β)
    (h : ∀ x ∈ items, Reads (f x) (g x)) : Reads (items.flatMap f) (items.flatMap g) := by
  induction items with
  | nil => exact fun _ ↦ rfl
  | cons x items ih =>
    rw [List.flatMap_cons, List.flatMap_cons]
    exact (h x List.mem_cons_self).append (ih fun y hy ↦ h y (List.mem_cons_of_mem x hy))

theorem reading_line (hwrite : Writes write) (line : LineOf α) :
    reading (line.text write) = join separatorText (line.readings write) := by
  have hfirst := (enclosed_pipeline hwrite line.first).reads
  have hall := (hfirst.reading ▸ hfirst).append
    (reads_flatMap line.rest fun p _ ↦ reads_operator hwrite p.1 p.2)
  rw [LineOf.readings, List.map_cons, join, joinTail, List.flatMap_map]
  exact hall.reading

theorem whole_pipeline (hwrite : Writes write) (p : Pipeline α) :
    Whole separator (reading (p.text write)) := by
  have hp := enclosed_pipeline hwrite p
  rw [hp.reads.reading]
  exact hp.segment

/-- **A line is cut into its pipelines.** -/
theorem splitSegments_text (hwrite : Writes write) (line : LineOf α) :
    splitSegments (line.text write) =
      ((.always, line.first) :: line.rest).map fun p ↦ ⟨p.1, p.2.text write⟩ := by
  have hsplit : split separatorText separator .always
      (join separatorText (line.readings write)) = line.readings write := by
    refine split_join cuts_separator
      (fun _ zs ↦ separator_eq_some_iff.mpr (List.prefix_append _ zs))
      (show Whole separator (Separator.always, reading (line.first.text write)).2 from
        whole_pipeline hwrite line.first) fun piece hpiece ↦ ?_
    obtain ⟨p, -, rfl⟩ := List.mem_map.mp hpiece
    exact whole_pipeline hwrite p.2
  rw [splitSegments, splitSegmentsLoop_eq]
  show (split separatorText separator .always (reading (line.text write))).map _ = _
  rw [reading_line hwrite, hsplit, LineOf.readings, List.map_map]
  exact List.map_congr_left fun p _ ↦
    congrArg (Segment.mk p.1) (plain_readingLoop 0 Quotes.start _)

theorem writes_line (hwrite : Writes write) : Writes (LineOf.text write) where
  balanced line := by
    have hcommand : ∀ c : Command α, Balanced (c.text write) := fun c ↦
      (passes_flatMap c.args fun a _ ↦ (balanced_char (c := ' ') (by decide) (by decide)).append
        (balanced_arg hwrite a)).append
          (passes_flatMap c.redirects fun r _ ↦ balanced_redirection r)
    have hpipeline : ∀ p : Pipeline α, Balanced (p.text write) := fun p ↦
      (hcommand p.first).append (passes_flatMap p.rest fun c _ ↦
        (balanced_char (c := '|') (by decide) (by decide)).append (hcommand c))
    refine (hpipeline line.first).append (passes_flatMap line.rest fun p _ ↦
      (balanced_all ?_).append (hpipeline p.2))
    cases p.1 <;> decide
  head line := by
    obtain ⟨rest, hrest⟩ : ∃ rest, line.first.first.text write = ' ' :: rest :=
      command_head line.first.first
    rw [LineOf.text, Pipeline.text, hrest]
    exact fun h ↦ absurd (Option.some.inj h) (by decide)

theorem not_mem_line (hwrite : Writes write) {x : Marked} (hsep : ∀ kind, x ∉ separatorText kind)
    (hpipeline : ∀ p : Pipeline α, x ∉ reading (p.text write)) (line : LineOf α) :
    x ∉ reading (line.text write) := by
  rw [reading_line hwrite, LineOf.readings, List.map_cons, join, joinTail, List.flatMap_map]
  intro hx
  rcases List.mem_append.mp hx with hfirst | hrest
  · exact hpipeline line.first hfirst
  · obtain ⟨p, -, hp⟩ := List.mem_flatMap.mp hrest
    exact (List.mem_append.mp hp).elim (hsep p.1) (hpipeline p.2)

/-- Nothing is cut off a line. -/
theorem stripComment_text (hwrite : Writes write) (line : LineOf α) :
    stripComment (line.text write) = line.text write := by
  rw [stripComment, stripCommentLoop_eq, cutComment_eq_self]
  · exact plain_readingLoop 0 Quotes.start _
  · refine not_mem_line hwrite (fun kind ↦ by cases kind <;> decide) (fun p ↦ ?_) line
    rw [(enclosed_pipeline hwrite p).reads.reading]
    exact (enclosed_pipeline hwrite p).hash

theorem splitHeredoc_text (hwrite : Writes write) (line : LineOf α) :
    splitHeredoc (line.text write) = none := by
  refine splitHeredocLoop_eq_none [] ?_
  refine not_mem_line hwrite (fun kind ↦ by cases kind <;> decide) (fun p ↦ ?_) line
  rw [(enclosed_pipeline hwrite p).reads.reading]
  exact (enclosed_pipeline hwrite p).heredoc

/-! ### What is run -/

/-- **A command is taken apart into its arguments and its redirects.** -/
theorem splitRedirects_text (hwrite : Writes write) (c : Command α) :
    splitRedirects (c.text write) =
      .ok ((c.args.flatMap fun a ↦ ' ' :: a.text write) ++ List.replicate c.redirects.length ' ',
        c.redirects.map Redirection.redirect) := by
  have hargs : ∃ xs, Reads (c.args.flatMap fun a ↦ ' ' :: a.text write) xs ∧
      ('>', some Quotes.start) ∉ xs := by
    have harg : ∀ a : Arg α, ∃ xs, Reads (a.text write) xs ∧ ('>', some Quotes.start) ∉ xs :=
      fun a ↦ by
        obtain ⟨xs, hxs, hstill⟩ := still_arg hwrite a
        exact ⟨xs, hxs, fun hmem ↦ absurd (hstill '>' hmem) (by decide)⟩
    choose marks hmarks hnot using harg
    refine ⟨c.args.flatMap fun a ↦ bare [' '] ++ marks a, reads_flatMap c.args fun a _ ↦
      (reads_char (c := ' ') (by decide)).append (hmarks a), fun hmem ↦ ?_⟩
    obtain ⟨a, -, ha⟩ := List.mem_flatMap.mp hmem
    exact (List.mem_append.mp ha).elim (fun h ↦ absurd h (by decide)) (hnot a)
  obtain ⟨xs, hxs, hredirect⟩ := hargs
  obtain ⟨word, hcopy⟩ := splitRedirectsLoop_copy [] (some [])
    (hxs (c.redirects.flatMap Redirection.text)) hxs.plain hredirect
  rw [splitRedirects, Command.text, hcopy, splitRedirectsLoop_redirections]
  rfl

theorem openRedirects_eq (sinks : Sinks) (redirects : List Redirection) :
    openRedirects host below sinks (redirects.map Redirection.redirect) =
      openTargets host.now sinks redirects := by
  induction redirects generalizing sinks with
  | nil => rfl
  | cons r redirects ih =>
    rw [List.map_cons]
    cases r with
    | file stream target append =>
      rw [Redirection.redirect, openRedirects, openTargets]
      dsimp only
      rw [parseLine_word, bind_assoc]
      refine congrArg _ (funext fun path ↦ ?_)
      rw [pure_bind]
      dsimp only
      refine congrArg _ (funext fun s ↦ congrArg _ (funext fun _ ↦ ?_))
      rcases (openRedirect host.now s path append).2 with message | node
      · rfl
      · exact ih _
    | errToOut => exact ih _
    | outToErr => exact ih _

theorem stagesLoop_eq (hwrite : Writes write)
    (hinner : ∀ line, below.execute (write line) = inner line) (piped : Option Str) (stderr : Str)
    (last : Option CommandResult) (commands : List (Command α)) :
    stagesLoop host below piped stderr last (commands.map (Command.text write)) =
      runCommands host below inner piped stderr last commands := by
  induction commands generalizing piped stderr last with
  | nil => rfl
  | cons c commands ih =>
    rw [List.map_cons, stagesLoop, splitRedirects_text hwrite]
    dsimp only
    rw [parseLine_args hwrite hinner, runCommands]
    refine congrArg _ (funext fun argv ↦ ?_)
    rw [openRedirects_eq]
    refine congrArg _ (funext fun opened ↦ ?_)
    rcases opened with message | sinks
    · rfl
    dsimp only
    refine congrArg _ (funext fun held ↦ ?_)
    split
    · exact ih _ _ _
    · rw [List.isEmpty_map]
      exact congrArg _ (funext fun result ↦ ih _ _ _)

theorem runPipeline_text (hwrite : Writes write)
    (hinner : ∀ line, below.execute (write line) = inner line) (p : Pipeline α) :
    runPipeline host below (p.text write) = p.run host below inner := by
  rw [runPipeline, Pipeline.run, splitPipeline_text hwrite]
  refine congrArg _ (funext fun s ↦ congrArg _ (funext fun _ ↦ ?_))
  exact stagesLoop_eq hwrite hinner _ _ _ _

/-- A pipeline is not blank. -/
theorem trim_pipeline (p : Pipeline α) : Text.trim (p.text write) ≠ [] := by
  have harg : ∀ a : Arg α, ∃ c ∈ a.text write, Text.isWhitespace c = false := fun a ↦ by
    cases a with
    | word w => exact ⟨'\'', List.mem_cons_self, by decide⟩
    | fields line => exact ⟨'$', List.mem_cons_self, by decide⟩
  have hredirect : ∀ r : Redirection, '>' ∈ r.text := fun r ↦ by
    cases r with
    | file stream target append => cases append <;> simp [Redirection.text]
    | errToOut => decide
    | outToErr => decide
  have hcommand : ∃ c ∈ p.first.text write, Text.isWhitespace c = false := by
    rcases p.first with ⟨args, redirects, hne⟩
    rcases hne with hargs | hredirects
    · obtain ⟨a, args, rfl⟩ := List.exists_cons_of_ne_nil hargs
      obtain ⟨c, hc, hspace⟩ := harg a
      exact ⟨c, List.mem_append_left _ (List.mem_flatMap.mpr
        ⟨a, List.mem_cons_self, List.mem_cons_of_mem _ hc⟩), hspace⟩
    · obtain ⟨r, redirects, rfl⟩ := List.exists_cons_of_ne_nil hredirects
      exact ⟨'>', List.mem_append_right _ (List.mem_flatMap.mpr
        ⟨r, List.mem_cons_self, hredirect r⟩), by decide⟩
  obtain ⟨c, hc, hspace⟩ := hcommand
  intro htrim
  rw [Text.trim_eq_nil_iff.mp htrim c (List.mem_append_left _ hc)] at hspace
  cases hspace

theorem segmentsLoop_eq (hwrite : Writes write)
    (hinner : ∀ line, below.execute (write line) = inner line) (out : Output) (status : ℤ)
    (ran : Bool) (pipelines : List (Separator × Pipeline α)) :
    segmentsLoop host below out status ran (pipelines.map fun p ↦ ⟨p.1, p.2.text write⟩) =
      runPipelines host below inner out status ran pipelines := by
  induction pipelines generalizing out status ran with
  | nil => rfl
  | cons p pipelines ih =>
    rw [List.map_cons, segmentsLoop, if_neg (trim_pipeline p.2), runPipelines]
    split
    · exact ih _ _ _
    · rw [runPipeline_text hwrite hinner]
      refine congrArg _ (funext fun result ↦ ?_)
      rcases result with - | result
      · exact ih _ _ _
      dsimp only
      refine congrArg _ (funext fun _ ↦ ?_)
      split
      · rfl
      split
      · rfl
      · exact ih _ _ _

/-- **A line does what it says**, if the lines in its substitutions do. -/
theorem execute_line (hwrite : Writes write)
    (hinner : ∀ line, below.execute (write line) = inner line) (line : LineOf α) :
    execute host below (line.text write) = line.run host below inner := by
  rw [execute, LineOf.run, stripComment_text hwrite, splitHeredoc_text hwrite,
    splitSegments_text hwrite, segmentsLoop_eq hwrite hinner]

end Commands

/-! ### Command lines -/

theorem writes_commandLine (d : ℕ) : Writes (CommandLine.text d) := by
  induction d with
  | zero => exact ⟨fun line ↦ Empty.elim line, fun line ↦ Empty.elim line⟩
  | succ d ih => exact writes_line ih

theorem level_execute_text (host : Host) (n d : ℕ) (line : CommandLine d) :
    (level host n).execute (CommandLine.text d line) = CommandLine.run host n d line := by
  induction n generalizing d with
  | zero => rfl
  | succ n ih =>
    cases d with
    | zero => exact Empty.elim line
    | succ d => exact execute_line (writes_commandLine d) (ih d) line

/-- **The interpreter does with the text of a command line what its tree says.** -/
theorem execute_text (host : Host) (d : ℕ) (line : CommandLine d) :
    execute host (levels host) (CommandLine.text d line) =
      CommandLine.run host (maxNestedCommands + 1) d line :=
  level_execute_text host (maxNestedCommands + 1) d line

/-- A quote and what `pwd` prints, if `cd` goes well. -/
example : CommandLine.text 2
    (⟨⟨⟨[.word [.text "cd".toList]], [], .inl (List.cons_ne_nil _ _)⟩, []⟩,
      [(.andIf, ⟨⟨[.word [.text "echo".toList], .word [.text ['\'']],
        .fields ⟨⟨⟨[.word [.text "pwd".toList]], [], .inl (List.cons_ne_nil _ _)⟩, []⟩, []⟩], [],
        .inl (List.cons_ne_nil _ _)⟩, []⟩)]⟩ : LineOf (LineOf Empty)) =
    " '''cd'&& '''echo' ''''\\''' $( '''pwd')".toList := by decide

end Syntax

end Mimic
