import Mimic.Shell.LineBounds

/-!
# The length of the line

What the line editor keeps is meant to be bounded by the length of a line. Two steps go past it: a
completion, which cuts the rest of the line but not what it puts in, and the recall of a history
entry, which is as long as the lossy decoding of the line it was made of.

## Main results

* `within_iff_fits`: a run keeps the bounds all along exactly if each completion and each entry
  recalled fits in a line.
-/

namespace Mimic.LineEditor

open GuardedRun

variable {e e' : LineEditor} {limits : ℕ × ℕ} {maxLine : ℕ}

/-! ### The bounds -/

/-- What an editor keeps is within the length of a line, and its history within three times that. -/
structure Within (maxLine : ℕ) (e : LineEditor) : Prop where
  buf : e.buf.length ≤ maxLine
  kill : e.kill.length ≤ maxLine
  stash : e.stash.length ≤ maxLine
  query : ∀ s ∈ e.search, s.query.length ≤ maxLine
  history : ∀ line ∈ e.history, Text.byteLen line ≤ 3 * maxLine

/-- A step to within the bounds that submits no line longer than an entry of the history. -/
structure StaysWithin (maxLine : ℕ) (step : Reaction × LineEditor) : Prop where
  within : Within maxLine step.2
  submits : ∀ echo line, step.1 = .submit echo line → Text.byteLen line ≤ 3 * maxLine

/-- The entry that a step back in the history shows. -/
def prevEntry (e : LineEditor) : Option Str :=
  match e.histPos with
  | none => e.history.getLast?
  | some 0 => none
  | some (i + 1) => e.history[i]?

/-- The entry that a step forward in the history shows. -/
def nextEntry (e : LineEditor) : Option Str := e.histPos.bind fun i ↦ e.history[i + 1]?

/-- The entry of the history that a byte recalls. -/
def recalls (e : LineEditor) (byte : UInt8) : Option Str :=
  match e.esc, e.search with
  | .got, _ => none
  | .csi, _ => if byte = 0x41 then e.prevEntry else if byte = 0x42 then e.nextEntry else none
  | .none, some _ => if byte = 0x10 then e.history.getLast? else none
  | .none, none => if byte = 0x10 then e.prevEntry else if byte = 0x0e then e.nextEntry else none

/-- What an action puts in the line fits there. -/
def Fits : Action → LineEditor → Prop
  | .key byte, e => ∀ line ∈ e.recalls byte, Text.byteLen line ≤ e.maxLine
  | .complete replacement addSpace, e =>
    e.wordStart + Text.byteLen replacement + (if addSpace then 1 else 0) ≤ e.maxLine
  | _, _ => True

/-! ### What the keys keep -/

theorem Within.new (maxLine maxHistory : ℕ) : Within maxLine (new maxLine maxHistory) where
  buf := Nat.zero_le _
  kill := Nat.zero_le _
  stash := Nat.zero_le _
  query := by simp [LineEditor.new]
  history := by simp [LineEditor.new]

theorem Within.edit (h : Within maxLine e) (hb : e'.buf.length ≤ maxLine)
    (hk : e'.kill.length ≤ maxLine) (hst : e'.stash.length ≤ maxLine)
    (hh : e'.history = e.history) (hs : e'.search = e.search ∨ e'.search = none) :
    Within maxLine e' where
  buf := hb
  kill := hk
  stash := hst
  query := by
    rcases hs with hs | hs
    · rw [hs]; exact h.query
    · simp [hs]
  history := by rw [hh]; exact h.history

/-- A shorter line, and nothing else new. -/
theorem Within.shorten (h : Within maxLine e) {buf : Bytes} (hb : buf.length ≤ e.buf.length)
    (cursor : ℕ) : Within maxLine { e with buf := buf, cursor := cursor } :=
  h.edit (hb.trans h.buf) h.kill h.stash rfl (.inl rfl)

theorem StaysWithin.ignore (h : Within maxLine e) : StaysWithin maxLine (.ignore, e) :=
  ⟨h, by simp⟩

theorem StaysWithin.write (h : Within maxLine e) (bytes : Bytes) :
    StaysWithin maxLine (.write bytes, e) :=
  ⟨h, by simp⟩

theorem StaysWithin.redrawn (h : Within maxLine e) : StaysWithin maxLine e.redrawn := .write h _

theorem StaysWithin.ite {c : Prop} [Decidable c] {step step' : Reaction × LineEditor}
    (ht : c → StaysWithin maxLine step) (he : ¬c → StaysWithin maxLine step') :
    StaysWithin maxLine (if c then step else step') := by
  split
  · exact ht ‹_›
  · exact he ‹_›

theorem byteLen_lossy_le (h : e.buf.length ≤ maxLine) :
    Text.byteLen (Text.fromUtf8Lossy e.buf) ≤ 3 * maxLine :=
  (Text.byteLen_fromUtf8Lossy_le _).trans (Nat.mul_le_mul_left 3 h)

theorem pushHistory_within (h : Within maxLine e) {line : Str}
    (hl : Text.byteLen line ≤ 3 * maxLine) :
    ∀ entry ∈ (e.pushHistory line).history, Text.byteLen entry ≤ 3 * maxLine := by
  intro entry hentry
  simp only [pushHistory] at hentry
  split at hentry
  · exact h.history entry hentry
  · rcases List.mem_append.mp (List.mem_of_mem_drop hentry) with hentry | hentry
    · exact h.history entry hentry
    · obtain rfl := List.mem_singleton.mp hentry
      exact (Text.byteLen_trim_le line).trans hl

theorem submit_within (h : Within maxLine e) : StaysWithin maxLine e.submit := by
  have hl := byteLen_lossy_le h.buf
  have hh := pushHistory_within h hl
  rw [submit, pushHistory_eq]
  refine ⟨⟨Nat.zero_le _, h.kill, Nat.zero_le _, h.query, hh⟩, fun echo line heq ↦ ?_⟩
  obtain ⟨-, rfl⟩ := Reaction.submit.inj heq
  exact hl

theorem insert_within (h : Within maxLine e) (hm : e.maxLine = maxLine) (byte : UInt8) :
    StaysWithin maxLine (e.insert byte) := by
  refine .ite (fun _ ↦ .ignore h) fun hroom ↦ ?_
  have hw : Within maxLine { e with
      buf := e.buf.take e.cursor ++ byte :: e.buf.drop e.cursor
      cursor := e.cursor + 1
      histPos := none } := by
    refine h.edit ?_ h.kill h.stash rfl (.inl rfl)
    simp only [List.length_append, List.length_take, List.length_cons, List.length_drop]
    omega
  exact .ite (fun _ ↦ .write hw _) fun _ ↦ .redrawn hw

theorem backspace_within (h : Within maxLine e) : StaysWithin maxLine e.backspace := by
  refine .ite (fun _ ↦ .ignore h) fun _ ↦ .redrawn (h.shorten ?_ _)
  have := prevChar_le e e.cursor
  simp only [List.length_append, List.length_take, List.length_drop]
  omega

theorem deleteForward_within (h : Within maxLine e) : StaysWithin maxLine e.deleteForward := by
  refine .ite (fun _ ↦ .ignore h) fun _ ↦ .redrawn (h.shorten ?_ _)
  have := lt_nextChar e e.cursor
  simp only [List.length_append, List.length_take, List.length_drop]
  omega

theorem moveTo_within (h : Within maxLine e) (i : ℕ) : Within maxLine { e with cursor := i } :=
  h.shorten le_rfl i

theorem moveLeft_within (h : Within maxLine e) : StaysWithin maxLine e.moveLeft :=
  .ite (fun _ ↦ .ignore h) fun _ ↦ .write (moveTo_within h _) _

theorem moveRight_within (h : Within maxLine e) : StaysWithin maxLine e.moveRight :=
  .ite (fun _ ↦ .ignore h) fun _ ↦ .write (moveTo_within h _) _

theorem killToStart_within (h : Within maxLine e) : StaysWithin maxLine e.killToStart := by
  refine .ite (fun _ ↦ .ignore h) fun _ ↦ .redrawn ?_
  have hb := h.buf
  refine h.edit ?_ ?_ h.stash rfl (.inl rfl)
  · simp only [List.length_drop]
    omega
  · simp only [List.length_take]
    omega

theorem killToEnd_within (h : Within maxLine e) : StaysWithin maxLine e.killToEnd := by
  refine .ite (fun _ ↦ .ignore h) fun _ ↦ .redrawn ?_
  have hb := h.buf
  refine h.edit ?_ ?_ h.stash rfl (.inl rfl)
  · simp only [List.length_take]
    omega
  · simp only [List.length_drop]
    omega

theorem killWord_within (h : Within maxLine e) : StaysWithin maxLine e.killWord := by
  refine .ite (fun _ ↦ .ignore h) fun _ ↦ .redrawn ?_
  have hb := h.buf
  have hbefore := ((e.buf.take e.cursor).reverse.dropWhile_suffix isAsciiWhitespace).length_le
  generalize (e.buf.take e.cursor).reverse.dropWhile isAsciiWhitespace = before at hbefore
  have hstart := (before.dropWhile_suffix fun b ↦ !isAsciiWhitespace b).length_le
  rw [List.length_reverse, List.length_take] at hbefore
  refine h.edit ?_ ?_ h.stash rfl (.inl rfl)
  · simp only [List.length_append, List.length_take, List.length_drop]
    omega
  · simp only [List.length_take, List.length_drop]
    omega

theorem yank_within (h : Within maxLine e) (hm : e.maxLine = maxLine) :
    StaysWithin maxLine e.yank := by
  refine .ite (fun _ ↦ .ignore h) fun hroom ↦ .redrawn (h.edit ?_ h.kill h.stash rfl (.inl rfl))
  simp only [List.length_append, List.length_take, List.length_drop]
  omega

theorem interrupt_within (h : Within maxLine e) : StaysWithin maxLine e.interrupt :=
  ⟨h.edit (Nat.zero_le _) h.kill (Nat.zero_le _) rfl (.inl rfl), by simp [interrupt]⟩

theorem ctrlD_within (h : Within maxLine e) : StaysWithin maxLine e.ctrlD :=
  .ite (fun _ ↦ ⟨h, by simp⟩) fun _ ↦ deleteForward_within h

/-! ### The history -/

theorem showEntry_within (h : Within maxLine e) {i : ℕ}
    (hfits : ∀ line ∈ e.history[i]?, Text.byteLen line ≤ maxLine) :
    StaysWithin maxLine (e.showEntry i).redrawn := by
  have hline : Text.byteLen (e.history.getD i []) ≤ maxLine := by
    rw [List.getD_eq_getElem?_getD]
    cases hg : e.history[i]? with
    | none => exact Nat.zero_le _
    | some line => exact hfits line hg
  refine .redrawn (h.edit ?_ h.kill h.stash rfl (.inl rfl))
  rw [showEntry, Text.length_toUtf8]
  exact hline

theorem historyPrev_within (h : Within maxLine e)
    (hfits : ∀ line ∈ e.prevEntry, Text.byteLen line ≤ maxLine) :
    StaysWithin maxLine e.historyPrev := by
  refine .ite (fun _ ↦ .ignore h) fun _ ↦ ?_
  rw [prevEntry] at hfits
  cases hp : e.histPos with
  | none =>
    rw [hp] at hfits
    have hstash : Within maxLine { e with histPos := none, stash := e.buf } :=
      h.edit h.buf h.kill h.buf rfl (.inl rfl)
    refine showEntry_within hstash ?_
    rw [← List.getLast?_eq_getElem?]
    exact hfits
  | some i =>
    rw [hp] at hfits
    cases i with
    | zero => exact .ignore h
    | succ i => exact showEntry_within h hfits

theorem historyNext_within (h : Within maxLine e)
    (hfits : ∀ line ∈ e.nextEntry, Text.byteLen line ≤ maxLine) :
    StaysWithin maxLine e.historyNext := by
  rw [historyNext]
  cases hp : e.histPos with
  | none => exact .ignore h
  | some i =>
    rw [nextEntry, hp] at hfits
    refine .ite (fun _ ↦ showEntry_within h hfits) fun _ ↦ .redrawn ?_
    exact h.edit h.stash h.kill (Nat.zero_le _) rfl (.inl rfl)

/-! ### The search -/

theorem searching_within (h : Within maxLine e) {s : Search} (hs : s.query.length ≤ maxLine) :
    StaysWithin maxLine { e with search := some s }.searching :=
  ⟨⟨h.buf, h.kill, h.stash, by simpa [searching] using hs, h.history⟩, by simp [searching]⟩

/-- Leaving a search, the entry it found is cut at the length of a line. -/
theorem acceptSearch_within (h : Within maxLine e) (hm : e.maxLine = maxLine) (s : Search) :
    Within maxLine (e.acceptSearch s) := by
  refine h.edit ?_ h.kill h.stash rfl (.inr rfl)
  rw [acceptSearch]
  cases s.matched with
  | none => exact h.buf
  | some i =>
    simp only [List.length_take]
    omega

/-! ### A byte -/

theorem inputKey_within (h : Within maxLine e) (hm : e.maxLine = maxLine) {byte : UInt8}
    (hprev : byte = 0x10 → ∀ line ∈ e.prevEntry, Text.byteLen line ≤ maxLine)
    (hnext : byte = 0x0e → ∀ line ∈ e.nextEntry, Text.byteLen line ≤ maxLine) :
    StaysWithin maxLine (e.inputKey byte) := by
  refine .ite (fun _ ↦ submit_within h) fun _ ↦ ?_
  refine .ite (fun _ ↦ .ignore (h.edit h.buf h.kill h.stash rfl (.inl rfl))) fun _ ↦ ?_
  refine .ite (fun _ ↦ ⟨h, by simp⟩) fun _ ↦ ?_
  refine .ite (fun _ ↦ backspace_within h) fun _ ↦ ?_
  refine .ite (fun _ ↦ .redrawn (moveTo_within h _)) fun _ ↦ ?_
  refine .ite (fun _ ↦ .redrawn (moveTo_within h _)) fun _ ↦ ?_
  refine .ite (fun _ ↦ moveLeft_within h) fun _ ↦ ?_
  refine .ite (fun _ ↦ moveRight_within h) fun _ ↦ ?_
  refine .ite (fun hb ↦ historyPrev_within h (hprev hb)) fun _ ↦ ?_
  refine .ite (fun hb ↦ historyNext_within h (hnext hb)) fun _ ↦ ?_
  refine .ite (fun _ ↦ killToStart_within h) fun _ ↦ ?_
  refine .ite (fun _ ↦ killToEnd_within h) fun _ ↦ ?_
  refine .ite (fun _ ↦ killWord_within h) fun _ ↦ ?_
  refine .ite (fun _ ↦ yank_within h hm) fun _ ↦ ?_
  refine .ite (fun _ ↦ .write h _) fun _ ↦ ?_
  refine .ite (fun _ ↦ searching_within h (Nat.zero_le _)) fun _ ↦ ?_
  refine .ite (fun _ ↦ interrupt_within h) fun _ ↦ ?_
  refine .ite (fun _ ↦ ctrlD_within h) fun _ ↦ ?_
  exact .ite (fun _ ↦ insert_within h hm byte) fun _ ↦ .ignore h

theorem inputAfterEsc_within (h : Within maxLine e) (byte : UInt8) :
    StaysWithin maxLine (e.inputAfterEsc byte) :=
  .ite (fun _ ↦ .ignore (h.edit h.buf h.kill h.stash rfl (.inl rfl)))
    fun _ ↦ .ignore (h.edit h.buf h.kill h.stash rfl (.inl rfl))

theorem inputCsi_within (h : Within maxLine e) {byte : UInt8}
    (hprev : byte = 0x41 → ∀ line ∈ e.prevEntry, Text.byteLen line ≤ maxLine)
    (hnext : byte = 0x42 → ∀ line ∈ e.nextEntry, Text.byteLen line ≤ maxLine) :
    StaysWithin maxLine (e.inputCsi byte) := by
  have hw : Within maxLine { e with esc := .none, csiParams := [] } :=
    h.edit h.buf h.kill h.stash rfl (.inl rfl)
  refine .ite (fun _ ↦ .ignore ?_) fun _ ↦ ?_
  · split
    · exact h.edit h.buf h.kill h.stash rfl (.inl rfl)
    · exact h
  refine .ite (fun hb ↦ historyPrev_within hw (hprev hb)) fun _ ↦ ?_
  refine .ite (fun hb ↦ historyNext_within hw (hnext hb)) fun _ ↦ ?_
  refine .ite (fun _ ↦ moveRight_within hw) fun _ ↦ ?_
  refine .ite (fun _ ↦ moveLeft_within hw) fun _ ↦ ?_
  refine .ite (fun _ ↦ .redrawn (moveTo_within hw _)) fun _ ↦ ?_
  refine .ite (fun _ ↦ .redrawn (moveTo_within hw _)) fun _ ↦ ?_
  refine .ite (fun _ ↦ ?_) fun _ ↦ .ignore hw
  refine .ite (fun _ ↦ .redrawn (moveTo_within hw _)) fun _ ↦ ?_
  refine .ite (fun _ ↦ .redrawn (moveTo_within hw _)) fun _ ↦ ?_
  exact .ite (fun _ ↦ deleteForward_within hw) fun _ ↦ .ignore hw

theorem inputSearch_within (h : Within maxLine e) (hm : e.maxLine = maxLine) {s : Search}
    (hs : e.search = some s) {byte : UInt8}
    (hprev : byte = 0x10 → ∀ line ∈ e.history.getLast?, Text.byteLen line ≤ maxLine) :
    StaysWithin maxLine (e.inputSearch s byte) := by
  have hq := h.query s hs
  have ha := acceptSearch_within h hm s
  refine .ite (fun _ ↦ submit_within ha) fun _ ↦ ?_
  refine .ite (fun _ ↦ searching_within h hq) fun _ ↦ ?_
  refine .ite (fun _ ↦ .redrawn (h.edit h.buf h.kill h.stash rfl (.inr rfl))) fun _ ↦ ?_
  refine .ite (fun _ ↦ searching_within h ?_) fun _ ↦ ?_
  · rw [List.length_dropLast]
    omega
  refine .ite (fun _ ↦ searching_within h ?_) fun _ ↦ ?_
  · split
    · rw [List.length_append, List.length_singleton]
      omega
    · exact hq
  -- outside the search no entry is shown, so a step back starts from the newest
  have hk : StaysWithin maxLine ((e.acceptSearch s).inputKey byte) :=
    inputKey_within ha hm hprev fun _ ↦ by simp [nextEntry, acceptSearch]
  dsimp only
  generalize (e.acceptSearch s).inputKey byte = reacted at hk ⊢
  obtain ⟨reaction, edited⟩ := reacted
  cases reaction with
  | ignore | write => exact .write hk.within _
  | submit | eof | complete => exact hk

theorem input_within (h : Within maxLine e) (hm : e.maxLine = maxLine) {byte : UInt8}
    (hfits : Fits (.key byte) e) : StaysWithin maxLine (e.input byte) := by
  subst hm
  rw [Fits, recalls] at hfits
  rw [input]
  cases he : e.esc with
  | got => exact inputAfterEsc_within h byte
  | csi =>
    refine inputCsi_within h (fun hb ↦ ?_) fun hb ↦ ?_
    · simpa [he, hb] using hfits
    · simpa [he, hb] using hfits
  | none =>
    cases hs : e.search with
    | some s =>
      refine inputSearch_within h rfl hs fun hb ↦ ?_
      simpa [he, hs, hb] using hfits
    | none =>
      refine inputKey_within h rfl (fun hb ↦ ?_) fun hb ↦ ?_
      · simpa [he, hs, hb] using hfits
      · simpa [he, hs, hb] using hfits

/-! ### What is recalled is the line -/

theorem showEntry_buf {i : ℕ} {line : Str} (h : e.history[i]? = some line) :
    (e.showEntry i).buf = Text.toUtf8 line := by
  rw [showEntry, List.getD_eq_getElem?_getD, h]
  rfl

theorem historyPrev_buf {line : Str} (h : e.prevEntry = some line) :
    e.historyPrev.2.buf = Text.toUtf8 line := by
  have hne : e.history ≠ [] := by
    intro hnil
    rw [prevEntry, hnil] at h
    cases hp : e.histPos with
    | none => simp [hp] at h
    | some i => cases i <;> simp [hp] at h
  rw [historyPrev, if_neg hne]
  rw [prevEntry] at h
  cases hp : e.histPos with
  | none =>
    rw [hp, List.getLast?_eq_getElem?] at h
    exact showEntry_buf h
  | some i =>
    rw [hp] at h
    cases i with
    | zero => cases h
    | succ i => exact showEntry_buf h

theorem historyNext_buf {line : Str} (h : e.nextEntry = some line) :
    e.historyNext.2.buf = Text.toUtf8 line := by
  obtain ⟨i, hp, hi⟩ := Option.bind_eq_some_iff.mp h
  obtain ⟨hlt, -⟩ := List.getElem?_eq_some_iff.mp hi
  simp only [historyNext, hp, if_pos hlt]
  exact showEntry_buf hi

theorem inputSearch_snd (s : Search) :
    (e.inputSearch s 0x10).2 = (e.acceptSearch s).historyPrev.2 := by
  have hkey : (e.acceptSearch s).inputKey 0x10 = (e.acceptSearch s).historyPrev := rfl
  rw [inputSearch, if_neg (by decide), if_neg (by decide), if_neg (by decide), if_neg (by decide),
    if_neg (by decide)]
  dsimp only
  rw [hkey]
  generalize (e.acceptSearch s).historyPrev = reacted
  obtain ⟨reaction, edited⟩ := reacted
  cases reaction <;> rfl

theorem input_buf {byte : UInt8} {line : Str} (h : e.recalls byte = some line) :
    (e.input byte).2.buf = Text.toUtf8 line := by
  rw [recalls] at h
  rw [input]
  cases he : e.esc with
  | got => simp [he] at h
  | csi =>
    rw [he] at h
    dsimp only at h ⊢
    split_ifs at h with hb hb'
    · rw [hb]
      exact historyPrev_buf (e := { e with esc := .none, csiParams := [] }) h
    · rw [hb']
      exact historyNext_buf (e := { e with esc := .none, csiParams := [] }) h
  | none =>
    cases hs : e.search with
    | some s =>
      rw [he, hs] at h
      dsimp only at h ⊢
      split_ifs at h with hb
      rw [hb, inputSearch_snd]
      exact historyPrev_buf h
    | none =>
      rw [he, hs] at h
      dsimp only at h ⊢
      split_ifs at h with hb hb'
      · rw [hb]
        exact historyPrev_buf h
      · rw [hb']
        exact historyNext_buf h

/-! ### Completion -/

/-- What is put in stays, so it has to fit; what follows it is cut. -/
theorem applyCompletion_within_iff (h : Within maxLine e) (hb : Bounded limits e)
    (hm : e.maxLine = maxLine) (replacement : Str) (addSpace : Bool) :
    Within maxLine (e.applyCompletion replacement addSpace).2 ↔
      Fits (.complete replacement addSpace) e := by
  subst hm
  have hstart : e.wordStart ≤ e.buf.length := (wordStart_le e).trans hb.cursor
  have hlen : (e.buf.take e.wordStart ++ Text.toUtf8 replacement ++
      (if addSpace then [0x20] else [])).length =
      e.wordStart + Text.byteLen replacement + (if addSpace then 1 else 0) := by
    rw [List.length_append, List.length_append, List.length_take_of_le hstart,
      Text.length_toUtf8]
    cases addSpace <;> rfl
  rw [Fits, ← hlen, applyCompletion]
  dsimp only
  generalize e.buf.take e.wordStart ++ Text.toUtf8 replacement ++
    (if addSpace then [0x20] else []) = buf
  generalize e.buf.drop e.cursor = tail
  constructor
  · intro hw
    have := hw.buf
    rw [List.length_append] at this
    omega
  · intro hfits
    refine h.edit ?_ h.kill h.stash rfl (.inl rfl)
    rw [List.length_append]
    split
    · have := charStart_le tail (e.maxLine - buf.length)
      rw [List.length_take]
      omega
    · omega

/-! ### A run -/

theorem act_within_iff (h : Within maxLine e) (hb : Bounded limits e) (hm : e.maxLine = maxLine)
    (a : Action) : Within maxLine (act a e) ↔ Fits a e := by
  cases a with
  | key byte =>
    constructor
    · intro hw line hline
      have := hw.buf
      rw [act, input_buf hline, Text.length_toUtf8] at this
      rwa [hm]
    · exact fun hfits ↦ (input_within h hm hfits).within
  | complete replacement addSpace => exact applyCompletion_within_iff h hb hm replacement addSpace
  | prompt text =>
    exact iff_of_true (h.edit h.buf h.kill h.stash rfl (.inl rfl)) trivial
  | listing | word | render => exact iff_of_true h trivial

/-- The line that an action submits. -/
def submitted : Action → LineEditor → Option Str
  | .key byte, e =>
    match (e.input byte).1 with
    | .submit _ line => some line
    | _ => none
  | _, _ => none

theorem submitted_le (h : Within maxLine e) (hm : e.maxLine = maxLine) {a : Action}
    (hfits : Fits a e) {line : Str} (hline : submitted a e = some line) :
    Text.byteLen line ≤ 3 * maxLine := by
  cases a with
  | key byte =>
    rw [submitted] at hline
    have hs := (input_within h hm hfits).submits
    split at hline
    · rename_i echo line' heq
      obtain rfl : line' = line := Option.some.inj hline
      exact hs echo line' heq
    · cases hline
  | complete | prompt | listing | word | render => cases hline

/-- **The length of the line.** From a new editor, the line, what was killed or stashed and the
query are all along within the length of a line, and the history and what is submitted within three
times that, exactly if each completion and each entry recalled fits. -/
theorem within_iff_fits (maxLine maxHistory : ℕ) (actions : List Action) :
    let start := LineEditor.new maxLine maxHistory
    ((∀ k, Within maxLine (run act start (actions.take k))) ∧
        Admissible act (fun a e ↦ ∀ line, submitted a e = some line →
          Text.byteLen line ≤ 3 * maxLine) start actions) ↔
      Admissible act Fits start actions := by
  intro start
  have hb : Bounded (maxLine, maxHistory) start := .new maxLine maxHistory
  have hw : Within maxLine start := .new maxLine maxHistory
  have hm : ∀ {e}, Bounded (maxLine, maxHistory) e → e.maxLine = maxLine :=
    fun h ↦ congrArg Prod.fst h.caps
  have hall : (∀ k, Within maxLine (run act start (actions.take k))) ↔
      Admissible act Fits start actions :=
    forall_take_iff (I := Bounded (maxLine, maxHistory)) admissible_true
      (fun a _ _ h ↦ (act_safe h a).2)
      (fun a _ _ hb hw ↦ act_within_iff hw hb (hm hb) a) hb hw
  rw [hall, and_iff_left_iff_imp]
  refine fun hfits ↦ hfits.mono
    (I := fun e ↦ Bounded (maxLine, maxHistory) e ∧ Within maxLine e) ?_ ?_ ⟨hb, hw⟩
  · exact fun a e ha h ↦ ⟨(act_safe h.1 a).2, (act_within_iff h.2 h.1 (hm h.1) a).mpr ha⟩
  · exact fun a e ha h line ↦ submitted_le h.2 (hm h.1) ha

/-- Four bytes that are no UTF-8 come back as twelve, and a completion is put in whole. -/
theorem recalled_overlong :
    ¬Within 4 (run act (LineEditor.new 4 10)
        ([0x80, 0x80, 0x80, 0x80, 0x0d, 0x10].map .key)) ∧
      ¬Within 4 (run act (LineEditor.new 4 10) [.complete "words".toList false]) := by
  refine ⟨fun h ↦ ?_, fun h ↦ ?_⟩
  · exact absurd h.buf (by decide +kernel)
  · exact absurd h.buf (by decide +kernel)

end Mimic.LineEditor
