import Mimic.Foundation.CheckedList
import Mimic.Foundation.GuardedRun
import Mimic.Shell.LineEditor

/-!
# The indices of the line editor

The line editor over list operations that refuse an index out of range, as `shell/line.rs` reads
and cuts its buffer and its history. `none` is a step that would panic.

## Main results

* `Bounded`: the cursor is in the line, and the indices kept are in the history.
* `indices_safe`: from a new editor, whatever is typed and completed, no step panics, the editor
  that checks is the one that cuts, and it stays `Bounded`.
-/

namespace Mimic.LineEditor

open CheckedList GuardedRun

namespace Checked

variable (e : LineEditor)

/-! ### Drawing -/

def redraw : Option Bytes := do
  let behind ← slice e.buf e.cursor e.buf.length
  let back := (behind.filter fun b ↦ !Text.isContinuation b).length
  some ([0x0d] ++ e.prompt ++ e.buf ++ Text.toUtf8 "\x1b[K".toList ++
    if back > 0 then Text.toUtf8 ("\x1b[".toList ++ Text.decimal back ++ ['D']) else [])

def redrawn : Option (Reaction × LineEditor) := do
  let bytes ← redraw e
  some (.write bytes, e)

def showListing (listing : Str) : Option Bytes := do
  let below ← redraw e
  some ([0x0d, 0x0a] ++ crlf listing ++
    (if listing.getLast? = some '\n' then [] else [0x0d, 0x0a]) ++ below)

def renderSearch : Option Bytes :=
  match e.search with
  | none => redraw e
  | some s => do
    let matched ←
      match s.matched with
      | none => some []
      | some i => e.history[i]?
    some ([0x0d] ++ Text.toUtf8 "(reverse-i-search)`".toList ++ s.query ++
      Text.toUtf8 "': ".toList ++ Text.toUtf8 matched ++ Text.toUtf8 "\x1b[K".toList)

/-! ### Positions -/

def wordStart : Option ℕ := retreat e.buf (fun b ↦ !isAsciiWhitespace b) e.cursor

/-- `while i > 0 && is_continuation(bytes[i]) { i -= 1 }`. -/
def charStart (bytes : Bytes) : ℕ → Option ℕ
  | 0 => some 0
  | i + 1 => do
    let b ← bytes[i + 1]?
    if Text.isContinuation b then charStart bytes i else some (i + 1)

/-- The index of the character before `i`; none comes before 0. -/
def prevChar : ℕ → Option ℕ
  | 0 => none
  | i + 1 => charStart e.buf i

/-- `while i < bytes.len() && is_continuation(bytes[i]) { i += 1 }`. -/
def charEnd (bytes : Bytes) (i : ℕ) : Option ℕ :=
  if i < bytes.length then do
    let b ← bytes[i]?
    if Text.isContinuation b then charEnd bytes (i + 1) else some i
  else some i
termination_by bytes.length - i

def nextChar (i : ℕ) : Option ℕ := charEnd e.buf (i + 1)

/-! ### Completion -/

def currentWord : Option (Str × Bool) := do
  let start ← wordStart e
  let word ← slice e.buf start e.cursor
  let before ← slice e.buf 0 start
  some (Text.fromUtf8Lossy word, before.all isAsciiWhitespace)

def applyCompletion (replacement : Str) (addSpace : Bool) : Option (Bytes × LineEditor) := do
  let start ← wordStart e
  let (head, tail) ← splitOff e.buf e.cursor
  let buf := head.take start ++ Text.toUtf8 replacement ++ if addSpace then [0x20] else []
  let tail ←
    if buf.length + tail.length > e.maxLine then do
      let keep ← charStart tail (e.maxLine - buf.length)
      some (tail.take keep)
    else some tail
  let edited := { e with cursor := buf.length, buf := buf ++ tail }
  let bytes ← redraw edited
  some (bytes, edited)

/-! ### Editing -/

def insert (byte : UInt8) : Option (Reaction × LineEditor) :=
  if e.buf.length ≥ e.maxLine then some (.ignore, e)
  else do
    let buf ← splice e.buf e.cursor [byte]
    let edited := { e with buf := buf, cursor := e.cursor + 1, histPos := none }
    if edited.cursor = edited.buf.length then some (.write [byte], edited) else redrawn edited

def backspace : Option (Reaction × LineEditor) :=
  if e.cursor = 0 then some (.ignore, e)
  else do
    let start ← prevChar e e.cursor
    let (_, buf) ← drain e.buf start e.cursor
    redrawn { e with buf := buf, cursor := start }

def deleteForward : Option (Reaction × LineEditor) :=
  if e.cursor ≥ e.buf.length then some (.ignore, e)
  else do
    let stop ← nextChar e e.cursor
    let (_, buf) ← drain e.buf e.cursor stop
    redrawn { e with buf := buf }

def moveHome : Option (Reaction × LineEditor) := redrawn { e with cursor := 0 }

def moveEnd : Option (Reaction × LineEditor) := redrawn { e with cursor := e.buf.length }

def moveLeft : Option (Reaction × LineEditor) :=
  if e.cursor = 0 then some (.ignore, e)
  else do
    let start ← prevChar e e.cursor
    some (.write (Text.toUtf8 "\x1b[D".toList), { e with cursor := start })

def moveRight : Option (Reaction × LineEditor) :=
  if e.cursor ≥ e.buf.length then some (.ignore, e)
  else do
    let stop ← nextChar e e.cursor
    some (.write (Text.toUtf8 "\x1b[C".toList), { e with cursor := stop })

def killToStart : Option (Reaction × LineEditor) :=
  if e.cursor = 0 then some (.ignore, e)
  else do
    let (kill, buf) ← drain e.buf 0 e.cursor
    redrawn { e with kill := kill, buf := buf, cursor := 0 }

def killToEnd : Option (Reaction × LineEditor) :=
  if e.cursor ≥ e.buf.length then some (.ignore, e)
  else do
    let (buf, kill) ← splitOff e.buf e.cursor
    redrawn { e with kill := kill, buf := buf }

def killWord : Option (Reaction × LineEditor) :=
  if e.cursor = 0 then some (.ignore, e)
  else do
    let stop ← retreat e.buf isAsciiWhitespace e.cursor
    let start ← retreat e.buf (fun b ↦ !isAsciiWhitespace b) stop
    let (kill, buf) ← drain e.buf start e.cursor
    redrawn { e with kill := kill, buf := buf, cursor := start }

def yank : Option (Reaction × LineEditor) :=
  if e.kill = [] ∨ e.buf.length + e.kill.length > e.maxLine then some (.ignore, e)
  else do
    let buf ← splice e.buf e.cursor e.kill
    redrawn { e with buf := buf, cursor := e.cursor + e.kill.length, histPos := none }

def clearScreen : Option (Reaction × LineEditor) := do
  let bytes ← redraw e
  some (.write (Text.toUtf8 "\x1b[H\x1b[2J".toList ++ bytes), e)

def interrupt : Option (Reaction × LineEditor) := do
  let edited := { e with buf := [], cursor := 0, histPos := none, stash := [] }
  let bytes ← redraw edited
  some (.write (Text.toUtf8 "^C\r\n".toList ++ bytes), edited)

def ctrlD : Option (Reaction × LineEditor) :=
  if e.buf = [] then some (.eof, e) else deleteForward e

/-! ### History -/

def showEntry (i : ℕ) : Option LineEditor := do
  let line ← e.history[i]?
  let buf := Text.toUtf8 line
  some { e with histPos := some i, buf := buf, cursor := buf.length }

def historyPrev : Option (Reaction × LineEditor) :=
  if e.history = [] then some (.ignore, e)
  else
    match e.histPos with
    | none => do
      let shown ← showEntry { e with stash := e.buf } (e.history.length - 1)
      redrawn shown
    | some 0 => some (.ignore, e)
    | some (i + 1) => do
      let shown ← showEntry e i
      redrawn shown

def historyNext : Option (Reaction × LineEditor) :=
  match e.histPos with
  | none => some (.ignore, e)
  | some i =>
    if i + 1 < e.history.length then do
      let shown ← showEntry e (i + 1)
      redrawn shown
    else
      redrawn { e with histPos := none, buf := e.stash, stash := [], cursor := e.stash.length }

/-! ### Reverse search -/

def searching : Option (Reaction × LineEditor) := do
  let bytes ← renderSearch e
  some (.write bytes, e)

def findMatch (before : ℕ) (query : Bytes) : Option (Option ℕ) :=
  if query = [] then some none
  else
    (List.range (min before e.history.length)).reverse.findM? fun i ↦ do
      let line ← e.history[i]?
      some (query <:+: Text.toUtf8 line)

def searchFor (query : Bytes) : Option LineEditor := do
  let found ← findMatch e e.history.length query
  some { e with search := some ⟨query, found⟩ }

def searchStep (s : Search) : Option LineEditor := do
  let found ← findMatch e (s.matched.getD e.history.length) s.query
  some { e with search := some { s with matched := found <|> s.matched } }

def acceptSearch (s : Search) : Option LineEditor := do
  let buf ←
    match s.matched with
    | some i => do
      let line ← e.history[i]?
      some ((Text.toUtf8 line).take e.maxLine)
    | none => some e.buf
  some { e with search := none, buf := buf, cursor := buf.length, histPos := none }

/-! ### Input -/

def inputKey (byte : UInt8) : Option (Reaction × LineEditor) :=
  if byte = 0x0d ∨ byte = 0x0a then some e.submit
  else if byte = 0x1b then some (.ignore, { e with esc := .got })
  else if byte = 0x09 then some (.complete, e)
  else if byte = 0x08 ∨ byte = 0x7f then backspace e
  else if byte = 0x01 then moveHome e
  else if byte = 0x05 then moveEnd e
  else if byte = 0x02 then moveLeft e
  else if byte = 0x06 then moveRight e
  else if byte = 0x10 then historyPrev e
  else if byte = 0x0e then historyNext e
  else if byte = 0x15 then killToStart e
  else if byte = 0x0b then killToEnd e
  else if byte = 0x17 then killWord e
  else if byte = 0x19 then yank e
  else if byte = 0x0c then clearScreen e
  else if byte = 0x12 then searching { e with search := some ⟨[], none⟩ }
  else if byte = 0x03 then interrupt e
  else if byte = 0x04 then ctrlD e
  else if isPrintable byte then insert e byte
  else some (.ignore, e)

def inputCsi (byte : UInt8) : Option (Reaction × LineEditor) :=
  if (0x30 ≤ byte ∧ byte ≤ 0x39) ∨ byte = 0x3b then
    some (.ignore,
      if e.csiParams.length < 8 then { e with csiParams := e.csiParams ++ [byte] } else e)
  else
    let params := e.csiParams
    let e := { e with esc := .none, csiParams := [] }
    if byte = 0x41 then historyPrev e
    else if byte = 0x42 then historyNext e
    else if byte = 0x43 then moveRight e
    else if byte = 0x44 then moveLeft e
    else if byte = 0x48 then moveHome e
    else if byte = 0x46 then moveEnd e
    else if byte = 0x7e then
      if params = [0x31] ∨ params = [0x37] then moveHome e
      else if params = [0x34] ∨ params = [0x38] then moveEnd e
      else if params = [0x33] then deleteForward e
      else some (.ignore, e)
    else some (.ignore, e)

def inputSearch (s : Search) (byte : UInt8) : Option (Reaction × LineEditor) :=
  if byte = 0x0d ∨ byte = 0x0a then do
    let accepted ← acceptSearch e s
    some accepted.submit
  else if byte = 0x12 then do
    let stepped ← searchStep e s
    searching stepped
  else if byte = 0x07 ∨ byte = 0x03 ∨ byte = 0x1b then redrawn { e with search := none }
  else if byte = 0x08 ∨ byte = 0x7f then do
    let searched ← searchFor e s.query.dropLast
    searching searched
  else if isPrintable byte then do
    let searched ← searchFor e (if s.query.length < e.maxLine then s.query ++ [byte] else s.query)
    searching searched
  else do
    let accepted ← acceptSearch e s
    let shown ← redraw accepted
    let (reaction, edited) ← inputKey accepted byte
    match reaction with
    | .write more => some (.write (shown ++ more), edited)
    | .ignore => some (.write shown, edited)
    | other => some (other, edited)

def input (byte : UInt8) : Option (Reaction × LineEditor) :=
  match e.esc, e.search with
  | .got, _ => some (e.inputAfterEsc byte)
  | .csi, _ => inputCsi e byte
  | .none, some s => inputSearch e s byte
  | .none, none => inputKey e byte

end Checked

/-! ### The bounds -/

/-- The caps of the line and of the history. -/
def caps (e : LineEditor) : ℕ × ℕ := (e.maxLine, e.maxHistory)

variable {e e' : LineEditor} {limits : ℕ × ℕ}

/-- The cursor is in the line, and the indices kept are in the history. -/
structure Bounded (limits : ℕ × ℕ) (e : LineEditor) : Prop where
  cursor : e.cursor ≤ e.buf.length
  histPos : ∀ i ∈ e.histPos, i < e.history.length
  matched : ∀ s ∈ e.search, ∀ i ∈ s.matched, i < e.history.length
  history : e.history.length ≤ limits.2
  caps : e.caps = limits

/-- A step that panics nowhere, does what the editor does, and keeps the bounds. -/
def Safe (limits : ℕ × ℕ) (checked : Option (Reaction × LineEditor))
    (step : Reaction × LineEditor) : Prop :=
  checked = some step ∧ Bounded limits step.2

/-- An edit of the line: the history is as before, and so are the indices into it, or they are
dropped. -/
theorem Bounded.edit (h : Bounded limits e) (hc : e'.cursor ≤ e'.buf.length)
    (hh : e'.history = e.history) (hm : e'.caps = e.caps)
    (hp : e'.histPos = e.histPos ∨ e'.histPos = none)
    (hs : e'.search = e.search ∨ e'.search = none) : Bounded limits e' where
  cursor := hc
  histPos := by
    rcases hp with hp | hp
    · rw [hp, hh]; exact h.histPos
    · simp [hp]
  matched := by
    rcases hs with hs | hs
    · rw [hs, hh]; exact h.matched
    · simp [hs]
  history := by rw [hh]; exact h.history
  caps := hm.trans h.caps

theorem Bounded.new (maxLine maxHistory : ℕ) :
    Bounded (maxLine, maxHistory) (new maxLine maxHistory) where
  cursor := le_rfl
  histPos := by simp [LineEditor.new]
  matched := by simp [LineEditor.new]
  history := Nat.zero_le _
  caps := rfl

/-- Nothing but the escape sequence in progress is other than before. -/
theorem Bounded.withEsc (h : Bounded limits e) (esc : Esc) (params : Bytes) :
    Bounded limits { e with esc := esc, csiParams := params } :=
  h.edit h.cursor rfl rfl (.inl rfl) (.inl rfl)

theorem Safe.ignore (h : Bounded limits e) : Safe limits (some (.ignore, e)) (.ignore, e) :=
  ⟨rfl, h⟩

theorem Safe.ite {c : Prop} [Decidable c] {checked checked' : Option (Reaction × LineEditor)}
    {step step' : Reaction × LineEditor} (ht : Safe limits checked step)
    (he : Safe limits checked' step') :
    Safe limits (if c then checked else checked') (if c then step else step') := by
  split
  · exact ht
  · exact he

/-! ### Positions -/

theorem redraw_eq (h : e.cursor ≤ e.buf.length) : Checked.redraw e = some e.redraw := by
  rw [Checked.redraw, slice_eq h le_rfl, List.take_length]
  rfl

theorem wordStart_eq (h : e.cursor ≤ e.buf.length) :
    Checked.wordStart e = some e.wordStart := by
  rw [Checked.wordStart, retreat_eq _ h, wordStart]
  have hsplit := congrArg List.length
    (List.takeWhile_append_dropWhile (p := fun b ↦ !isAsciiWhitespace b)
      (l := (e.buf.take e.cursor).reverse))
  rw [List.length_append, List.length_reverse, List.length_take_of_le h] at hsplit
  congr 1
  omega

theorem wordStart_le (e : LineEditor) : e.wordStart ≤ e.cursor := Nat.sub_le _ _

theorem charStart_eq {bytes : Bytes} {i : ℕ} (h : i < bytes.length ∨ i = 0) :
    Checked.charStart bytes i = some (charStart bytes i) := by
  induction i with
  | zero => rfl
  | succ i ih =>
    have hi : i + 1 < bytes.length := by omega
    have hg : bytes.getD (i + 1) 0 = bytes[i + 1] := by
      rw [List.getD_eq_getElem?_getD, List.getElem?_eq_getElem hi]
      rfl
    rw [Checked.charStart, charStart, hg, List.getElem?_eq_getElem hi]
    show (if Text.isContinuation bytes[i + 1] then _ else _) = _
    split
    · exact ih (.inl (by omega))
    · rfl

theorem charStart_le (bytes : Bytes) (i : ℕ) : charStart bytes i ≤ i := by
  induction i with
  | zero => exact le_rfl
  | succ i ih =>
    rw [charStart]
    split
    · omega
    · exact le_rfl

theorem prevChar_eq (h : e.cursor ≤ e.buf.length) (h0 : e.cursor ≠ 0) :
    Checked.prevChar e e.cursor = some (e.prevChar e.cursor) := by
  obtain ⟨i, hi⟩ := Nat.exists_eq_succ_of_ne_zero h0
  rw [hi, Checked.prevChar, prevChar]
  exact charStart_eq (.inl (by omega))

theorem prevChar_le (e : LineEditor) (i : ℕ) : e.prevChar i ≤ i :=
  (charStart_le _ _).trans (Nat.sub_le _ _)

theorem charEnd_eq (bytes : Bytes) (i : ℕ) :
    Checked.charEnd bytes i = some (i + ((bytes.drop i).takeWhile Text.isContinuation).length) := by
  fun_induction Checked.charEnd bytes i with
  | case1 i hi ih =>
    rw [List.drop_eq_getElem_cons hi, List.takeWhile_cons, List.getElem?_eq_getElem hi]
    show (if Text.isContinuation bytes[i] then _ else _) = _
    split
    · rw [ih, List.length_cons]
      congr 1
      omega
    · rfl
  | case2 i hi =>
    rw [List.drop_eq_nil_of_le (by omega)]
    rfl

theorem nextChar_eq (e : LineEditor) (i : ℕ) : Checked.nextChar e i = some (e.nextChar i) :=
  charEnd_eq e.buf (i + 1)

theorem nextChar_le {i : ℕ} (h : i < e.buf.length) : e.nextChar i ≤ e.buf.length := by
  have := (List.takeWhile_prefix (l := e.buf.drop (i + 1)) Text.isContinuation).length_le
  rw [List.length_drop] at this
  rw [nextChar]
  omega

theorem lt_nextChar (e : LineEditor) (i : ℕ) : i < e.nextChar i := by
  rw [nextChar]
  omega

/-! ### What each key does -/

theorem redrawn_safe (h : Bounded limits e) : Safe limits (Checked.redrawn e) e.redrawn := by
  refine ⟨?_, h⟩
  rw [Checked.redrawn, redraw_eq h.cursor]
  rfl

/-- Entering a line changes the history alone. -/
theorem pushHistory_eq (e : LineEditor) (line : Str) :
    e.pushHistory line = { e with history := (e.pushHistory line).history } := by
  simp only [pushHistory]
  split <;> rfl

theorem length_pushHistory (h : Bounded limits e) (line : Str) :
    (e.pushHistory line).history.length ≤ limits.2 := by
  have hcap : e.maxHistory = limits.2 := congrArg Prod.snd h.caps
  simp only [pushHistory]
  split
  · exact h.history
  · simp only [List.length_drop, hcap]
    omega

/-- A line is entered in the history when nothing points into it. -/
theorem submit_bounded (h : Bounded limits e) (hs : e.search = none) :
    Bounded limits e.submit.2 := by
  have hl := length_pushHistory h (Text.fromUtf8Lossy e.buf)
  rw [submit, pushHistory_eq]
  exact ⟨le_rfl, by simp, by simp [hs], hl, h.caps⟩

theorem insert_safe (h : Bounded limits e) (byte : UInt8) :
    Safe limits (Checked.insert e byte) (e.insert byte) := by
  rw [Checked.insert, insert]
  split
  · exact .ignore h
  · have hb : Bounded limits { e with
        buf := e.buf.take e.cursor ++ byte :: e.buf.drop e.cursor
        cursor := e.cursor + 1
        histPos := none } := by
      refine h.edit ?_ rfl rfl (.inr rfl) (.inl rfl)
      have := h.cursor
      simp only [List.length_append, List.length_take, List.length_cons, List.length_drop]
      omega
    rw [splice_eq h.cursor, List.append_assoc, List.singleton_append]
    simp only [Option.bind_eq_bind, Option.bind_some]
    split
    · exact ⟨rfl, hb⟩
    · exact redrawn_safe hb

theorem backspace_safe (h : Bounded limits e) : Safe limits (Checked.backspace e) e.backspace := by
  rw [Checked.backspace, backspace]
  split
  · exact .ignore h
  · rename_i h0
    have hle := prevChar_le e e.cursor
    rw [prevChar_eq h.cursor h0]
    show Safe limits (do let (_, buf) ← drain e.buf (e.prevChar e.cursor) e.cursor; _) _
    rw [drain_eq hle h.cursor]
    refine redrawn_safe (h.edit ?_ rfl rfl (.inl rfl) (.inl rfl))
    have := h.cursor
    simp only [List.length_append, List.length_take, List.length_drop]
    omega

theorem deleteForward_safe (h : Bounded limits e) :
    Safe limits (Checked.deleteForward e) e.deleteForward := by
  rw [Checked.deleteForward, deleteForward]
  split
  · exact .ignore h
  · rename_i h0
    have hle := nextChar_le (e := e) (not_le.mp h0)
    rw [nextChar_eq]
    show Safe limits (do let (_, buf) ← drain e.buf e.cursor (e.nextChar e.cursor); _) _
    rw [drain_eq (lt_nextChar e e.cursor).le hle]
    refine redrawn_safe (h.edit ?_ rfl rfl (.inl rfl) (.inl rfl))
    have := h.cursor
    simp only [List.length_append, List.length_take, List.length_drop]
    omega

theorem moveTo_safe (h : Bounded limits e) {i : ℕ} (hi : i ≤ e.buf.length) :
    Safe limits (Checked.redrawn { e with cursor := i }) { e with cursor := i }.redrawn :=
  redrawn_safe (h.edit hi rfl rfl (.inl rfl) (.inl rfl))

theorem moveHome_safe (h : Bounded limits e) : Safe limits (Checked.moveHome e) e.moveHome :=
  moveTo_safe h (Nat.zero_le _)

theorem moveEnd_safe (h : Bounded limits e) : Safe limits (Checked.moveEnd e) e.moveEnd :=
  moveTo_safe h le_rfl

theorem moveLeft_safe (h : Bounded limits e) : Safe limits (Checked.moveLeft e) e.moveLeft := by
  rw [Checked.moveLeft, moveLeft]
  split
  · exact .ignore h
  · rename_i h0
    rw [prevChar_eq h.cursor h0]
    exact ⟨rfl, h.edit ((prevChar_le e _).trans h.cursor) rfl rfl (.inl rfl) (.inl rfl)⟩

theorem moveRight_safe (h : Bounded limits e) : Safe limits (Checked.moveRight e) e.moveRight := by
  rw [Checked.moveRight, moveRight]
  split
  · exact .ignore h
  · rename_i h0
    rw [nextChar_eq]
    exact ⟨rfl, h.edit (nextChar_le (not_le.mp h0)) rfl rfl (.inl rfl) (.inl rfl)⟩

theorem killToStart_safe (h : Bounded limits e) :
    Safe limits (Checked.killToStart e) e.killToStart := by
  rw [Checked.killToStart, killToStart]
  split
  · exact .ignore h
  · rw [drain_eq (Nat.zero_le _) h.cursor]
    exact redrawn_safe (h.edit (Nat.zero_le _) rfl rfl (.inl rfl) (.inl rfl))

theorem killToEnd_safe (h : Bounded limits e) : Safe limits (Checked.killToEnd e) e.killToEnd := by
  rw [Checked.killToEnd, killToEnd]
  split
  · exact .ignore h
  · rw [splitOff_eq h.cursor]
    refine redrawn_safe (h.edit ?_ rfl rfl (.inl rfl) (.inl rfl))
    exact (List.length_take_of_le h.cursor).ge

theorem killWord_safe (h : Bounded limits e) : Safe limits (Checked.killWord e) e.killWord := by
  have hsuffix := (e.buf.take e.cursor).reverse.dropWhile_suffix isAsciiWhitespace
  simp only [Checked.killWord, killWord]
  split
  · exact .ignore h
  · rw [retreat_eq _ h.cursor]
    generalize (e.buf.take e.cursor).reverse.dropWhile isAsciiWhitespace = before at hsuffix ⊢
    have hlen : before.length ≤ e.cursor := by
      simpa [List.length_take_of_le h.cursor] using hsuffix.length_le
    -- what is before the blanks, read backwards, is the part of the line the second loop walks
    have htake : (e.buf.take before.length).reverse = before := by
      have hprefix : before.reverse <+: e.buf.take e.cursor := by
        simpa using List.reverse_prefix.mpr hsuffix
      have := List.prefix_iff_eq_take.mp hprefix
      rw [List.length_reverse, List.take_take, min_eq_left hlen] at this
      rw [← this, List.reverse_reverse]
    have hstart := (before.dropWhile_suffix fun b ↦ !isAsciiWhitespace b).length_le
    show Safe limits (do
      let start ← retreat e.buf (fun b ↦ !isAsciiWhitespace b) before.length
      let (kill, buf) ← drain e.buf start e.cursor
      Checked.redrawn { e with kill := kill, buf := buf, cursor := start }) _
    rw [retreat_eq _ (hlen.trans h.cursor), htake]
    generalize (before.dropWhile fun b ↦ !isAsciiWhitespace b).length = start at hstart ⊢
    show Safe limits (do let (kill, buf) ← drain e.buf start e.cursor; _) _
    rw [drain_eq (hstart.trans hlen) h.cursor]
    refine redrawn_safe (h.edit ?_ rfl rfl (.inl rfl) (.inl rfl))
    have := h.cursor
    simp only [List.length_append, List.length_take, List.length_drop]
    omega

theorem yank_safe (h : Bounded limits e) : Safe limits (Checked.yank e) e.yank := by
  rw [Checked.yank, yank]
  split
  · exact .ignore h
  · rw [splice_eq h.cursor]
    refine redrawn_safe (h.edit ?_ rfl rfl (.inr rfl) (.inl rfl))
    have := h.cursor
    simp only [List.length_append, List.length_take, List.length_drop]
    omega

theorem clearScreen_safe (h : Bounded limits e) :
    Safe limits (Checked.clearScreen e) e.clearScreen := by
  rw [Checked.clearScreen, redraw_eq h.cursor]
  exact ⟨rfl, h⟩

theorem interrupt_safe (h : Bounded limits e) : Safe limits (Checked.interrupt e) e.interrupt := by
  rw [Checked.interrupt]
  refine ⟨?_, h.edit le_rfl rfl rfl (.inr rfl) (.inl rfl)⟩
  simp only [redraw_eq (e := { e with buf := [], cursor := 0, histPos := none, stash := [] })
    le_rfl]
  rfl

theorem ctrlD_safe (h : Bounded limits e) : Safe limits (Checked.ctrlD e) e.ctrlD := by
  rw [Checked.ctrlD, ctrlD]
  split
  · exact ⟨rfl, h⟩
  · exact deleteForward_safe h

/-! ### The history -/

/-- Entry `i` shown, over any line stashed. -/
theorem showEntry_safe (h : Bounded limits e) {i : ℕ} (hi : i < e.history.length) :
    Safe limits (do let shown ← Checked.showEntry e i; Checked.redrawn shown)
      (e.showEntry i).redrawn := by
  have hg : e.history.getD i [] = e.history[i] := by
    rw [List.getD_eq_getElem?_getD, List.getElem?_eq_getElem hi]
    rfl
  have hb : Bounded limits (e.showEntry i) :=
    ⟨le_rfl, by simpa [showEntry] using hi, h.matched, h.history, h.caps⟩
  rw [Checked.showEntry, List.getElem?_eq_getElem hi, ← hg]
  exact redrawn_safe hb

theorem historyPrev_safe (h : Bounded limits e) :
    Safe limits (Checked.historyPrev e) e.historyPrev := by
  rw [Checked.historyPrev, historyPrev]
  split
  · exact .ignore h
  · rename_i hne
    have hpos := List.length_pos_iff.mpr hne
    cases hp : e.histPos with
    | none =>
      have hb : Bounded limits { e with stash := e.buf } :=
        h.edit h.cursor rfl rfl (.inl rfl) (.inl rfl)
      exact showEntry_safe hb (Nat.sub_lt hpos one_pos)
    | some i =>
      have hi := h.histPos i hp
      cases i with
      | zero => exact .ignore h
      | succ i => exact showEntry_safe h (by omega)

theorem historyNext_safe (h : Bounded limits e) :
    Safe limits (Checked.historyNext e) e.historyNext := by
  rw [Checked.historyNext, historyNext]
  cases e.histPos with
  | none => exact .ignore h
  | some i =>
    dsimp only
    split
    · rename_i hi
      exact showEntry_safe h hi
    · exact redrawn_safe (h.edit le_rfl rfl rfl (.inr rfl) (.inl rfl))

/-! ### The search -/

/-- A search over indices that are all in range is the search that cuts. -/
theorem findM?_eq_find? {α : Type} (p : α → Option Bool) (q : α → Bool) (l : List α)
    (h : ∀ a ∈ l, p a = some (q a)) : l.findM? p = some (l.find? q) := by
  induction l with
  | nil => rfl
  | cons a l ih =>
    rw [List.findM?, h a List.mem_cons_self, List.find?_cons]
    cases q a with
    | true => rfl
    | false => exact ih fun b hb ↦ h b (List.mem_cons_of_mem a hb)

theorem findMatch_eq (e : LineEditor) (before : ℕ) (query : Bytes) :
    Checked.findMatch e before query = some (e.findMatch before query) := by
  rw [Checked.findMatch, findMatch]
  split
  · rfl
  · refine findM?_eq_find? _ _ _ fun i hi ↦ ?_
    have hlt : i < e.history.length := by
      simp only [List.mem_reverse, List.mem_range] at hi
      omega
    rw [List.getElem?_eq_getElem hlt, List.getD_eq_getElem?_getD, List.getElem?_eq_getElem hlt]
    rfl

theorem lt_of_findMatch {before : ℕ} {query : Bytes} {i : ℕ}
    (hi : e.findMatch before query = some i) : i < e.history.length := by
  rw [findMatch] at hi
  split at hi
  · cases hi
  · have := List.mem_of_find?_eq_some hi
    simp only [List.mem_reverse, List.mem_range] at this
    omega

theorem renderSearch_eq (h : Bounded limits e) : Checked.renderSearch e = some e.renderSearch := by
  rw [Checked.renderSearch, renderSearch]
  cases hs : e.search with
  | none => exact redraw_eq h.cursor
  | some s =>
    cases hm : s.matched with
    | none => simp [hm]
    | some i =>
      have hi := h.matched s hs i hm
      simp [hm, List.getD_eq_getElem?_getD, List.getElem?_eq_getElem hi]

theorem searching_safe (h : Bounded limits e) : Safe limits (Checked.searching e) e.searching := by
  rw [Checked.searching, renderSearch_eq h]
  exact ⟨rfl, h⟩

/-- A search whose match, if any, is in the history. -/
theorem Bounded.withSearch (h : Bounded limits e) {s : Search}
    (hs : ∀ i ∈ s.matched, i < e.history.length) : Bounded limits { e with search := some s } :=
  ⟨h.cursor, h.histPos, by simpa using hs, h.history, h.caps⟩

theorem searchFor_safe (h : Bounded limits e) (query : Bytes) :
    Safe limits (do let searched ← Checked.searchFor e query; Checked.searching searched)
      (e.searchFor query).searching := by
  rw [Checked.searchFor, findMatch_eq]
  exact searching_safe (h.withSearch fun i hi ↦ lt_of_findMatch hi)

theorem searchStep_safe (h : Bounded limits e) {s : Search} (hs : e.search = some s) :
    Safe limits (do let stepped ← Checked.searchStep e s; Checked.searching stepped)
      (e.searchStep s).searching := by
  rw [Checked.searchStep, findMatch_eq]
  refine searching_safe (h.withSearch fun i hi ↦ ?_)
  cases hf : e.findMatch (s.matched.getD e.history.length) s.query with
  | none => exact h.matched s hs i (by simpa [hf] using hi)
  | some j =>
    obtain rfl : j = i := by simpa [hf] using hi
    exact lt_of_findMatch hf

theorem acceptSearch_bounded (h : Bounded limits e) (s : Search) :
    Bounded limits (e.acceptSearch s) :=
  h.edit le_rfl rfl rfl (.inr rfl) (.inr rfl)

theorem acceptSearch_eq (h : Bounded limits e) {s : Search} (hs : e.search = some s) :
    Checked.acceptSearch e s = some (e.acceptSearch s) := by
  rw [Checked.acceptSearch, acceptSearch]
  cases hm : s.matched with
  | none => rfl
  | some i =>
    have hi := h.matched s hs i hm
    simp [List.getD_eq_getElem?_getD, List.getElem?_eq_getElem hi]

/-! ### A byte -/

theorem inputKey_safe (h : Bounded limits e) (hs : e.search = none) (byte : UInt8) :
    Safe limits (Checked.inputKey e byte) (e.inputKey byte) := by
  refine .ite ⟨rfl, submit_bounded h hs⟩ ?_
  refine .ite (.ignore (h.withEsc _ _)) ?_
  refine .ite ⟨rfl, h⟩ ?_
  refine .ite (backspace_safe h) ?_
  refine .ite (moveHome_safe h) ?_
  refine .ite (moveEnd_safe h) ?_
  refine .ite (moveLeft_safe h) ?_
  refine .ite (moveRight_safe h) ?_
  refine .ite (historyPrev_safe h) ?_
  refine .ite (historyNext_safe h) ?_
  refine .ite (killToStart_safe h) ?_
  refine .ite (killToEnd_safe h) ?_
  refine .ite (killWord_safe h) ?_
  refine .ite (yank_safe h) ?_
  refine .ite (clearScreen_safe h) ?_
  refine .ite (searching_safe (h.withSearch (by simp))) ?_
  refine .ite (interrupt_safe h) ?_
  refine .ite (ctrlD_safe h) ?_
  exact .ite (insert_safe h byte) (.ignore h)

theorem inputAfterEsc_safe (h : Bounded limits e) (byte : UInt8) :
    Safe limits (some (e.inputAfterEsc byte)) (e.inputAfterEsc byte) := by
  refine ⟨rfl, ?_⟩
  rw [inputAfterEsc]
  split
  · exact h.withEsc _ _
  · exact h.withEsc _ _

theorem inputCsi_safe (h : Bounded limits e) (byte : UInt8) :
    Safe limits (Checked.inputCsi e byte) (e.inputCsi byte) := by
  have hb : Bounded limits { e with esc := .none, csiParams := [] } := h.withEsc _ _
  refine .ite ⟨rfl, ?_⟩ ?_
  · dsimp only
    split
    · exact h.withEsc _ _
    · exact h
  refine .ite (historyPrev_safe hb) ?_
  refine .ite (historyNext_safe hb) ?_
  refine .ite (moveRight_safe hb) ?_
  refine .ite (moveLeft_safe hb) ?_
  refine .ite (moveHome_safe hb) ?_
  refine .ite (moveEnd_safe hb) ?_
  refine .ite ?_ (.ignore hb)
  refine .ite (moveHome_safe hb) ?_
  refine .ite (moveEnd_safe hb) ?_
  exact .ite (deleteForward_safe hb) (.ignore hb)

theorem inputSearch_safe (h : Bounded limits e) {s : Search} (hs : e.search = some s)
    (byte : UInt8) :
    Safe limits (Checked.inputSearch e s byte) (e.inputSearch s byte) := by
  have ha := acceptSearch_bounded h s
  simp only [Checked.inputSearch, inputSearch, acceptSearch_eq h hs]
  split; · exact ⟨rfl, submit_bounded ha rfl⟩
  split; · exact searchStep_safe h hs
  split; · exact redrawn_safe (h.edit h.cursor rfl rfl (.inl rfl) (.inr rfl))
  split; · exact searchFor_safe h _
  split; · exact searchFor_safe h _
  obtain ⟨hk, hb⟩ := inputKey_safe ha rfl byte
  simp only [Option.bind_eq_bind, Option.bind_some, redraw_eq ha.cursor, hk]
  generalize (e.acceptSearch s).inputKey byte = reacted at hb ⊢
  obtain ⟨reaction, edited⟩ := reacted
  cases reaction <;> exact ⟨rfl, hb⟩

theorem input_safe (h : Bounded limits e) (byte : UInt8) :
    Safe limits (Checked.input e byte) (e.input byte) := by
  rw [Checked.input, input]
  cases e.esc with
  | got => exact inputAfterEsc_safe h byte
  | csi => exact inputCsi_safe h byte
  | none =>
    cases hs : e.search with
    | some s => exact inputSearch_safe h hs byte
    | none => exact inputKey_safe h hs byte

/-! ### Completion -/

theorem currentWord_eq (h : Bounded limits e) : Checked.currentWord e = some e.currentWord := by
  have hle := wordStart_le e
  rw [Checked.currentWord, wordStart_eq h.cursor]
  show (do
    let word ← slice e.buf e.wordStart e.cursor
    let before ← slice e.buf 0 e.wordStart
    some (Text.fromUtf8Lossy word, before.all isAsciiWhitespace)) = _
  rw [slice_eq hle h.cursor, slice_eq (Nat.zero_le _) (hle.trans h.cursor)]
  rfl

/-- The rest of the line is cut where it overflows: in the rest, or at its start. -/
theorem applyCompletion_safe (h : Bounded limits e) (replacement : Str) (addSpace : Bool) :
    Checked.applyCompletion e replacement addSpace =
        some (e.applyCompletion replacement addSpace) ∧
      Bounded limits (e.applyCompletion replacement addSpace).2 := by
  have hstart : (e.buf.take e.cursor).take e.wordStart = e.buf.take e.wordStart := by
    rw [List.take_take, min_eq_left (wordStart_le e)]
  simp only [Checked.applyCompletion, applyCompletion, wordStart_eq h.cursor,
    splitOff_eq h.cursor, Option.bind_eq_bind, Option.bind_some, hstart]
  generalize e.buf.take e.wordStart ++ Text.toUtf8 replacement ++
    (if addSpace then [0x20] else []) = buf
  generalize e.buf.drop e.cursor = tail
  have hb : ∀ rest : Bytes, Bounded limits { e with cursor := buf.length, buf := buf ++ rest } :=
    fun rest ↦ h.edit (by simp) rfl rfl (.inl rfl) (.inl rfl)
  split
  · rename_i hover
    have hkeep : e.maxLine - buf.length < tail.length ∨ e.maxLine - buf.length = 0 := by omega
    simp only [charStart_eq hkeep, Option.bind_some, redraw_eq (hb _).cursor]
    exact ⟨trivial, hb _⟩
  · simp only [redraw_eq (hb tail).cursor, Option.bind_some]
    exact ⟨trivial, hb tail⟩

theorem showListing_eq (h : Bounded limits e) (listing : Str) :
    Checked.showListing e listing = some (e.showListing listing) := by
  rw [Checked.showListing, redraw_eq h.cursor]
  rfl

/-! ### A run -/

/-- What the network layer does with an editor. -/
inductive Action
  | key (byte : UInt8)
  | complete (replacement : Str) (addSpace : Bool)
  | prompt (text : Str)
  | listing (text : Str)
  | word
  | render

/-- The editor after an action. -/
def act : Action → LineEditor → LineEditor
  | .key byte, e => (e.input byte).2
  | .complete replacement addSpace, e => (e.applyCompletion replacement addSpace).2
  | .prompt text, e => e.setPrompt text
  | .listing _, e | .word, e | .render, e => e

/-- The editor after an action, if the action does not panic. -/
def Checked.act : Action → LineEditor → Option LineEditor
  | .key byte, e => (input e byte).map Prod.snd
  | .complete replacement addSpace, e =>
    (applyCompletion e replacement addSpace).map Prod.snd
  | .prompt text, e => some (e.setPrompt text)
  | .listing text, e => (showListing e text).map fun _ ↦ e
  | .word, e => (currentWord e).map fun _ ↦ e
  | .render, e => (redraw e).map fun _ ↦ e

theorem act_safe (h : Bounded limits e) (a : Action) :
    Checked.act a e = some (act a e) ∧ Bounded limits (act a e) := by
  cases a with
  | key byte =>
    obtain ⟨heq, hb⟩ := input_safe h byte
    exact ⟨by rw [Checked.act, heq]; rfl, hb⟩
  | complete replacement addSpace =>
    obtain ⟨heq, hb⟩ := applyCompletion_safe h replacement addSpace
    exact ⟨by rw [Checked.act, heq]; rfl, hb⟩
  | prompt text => exact ⟨rfl, h.edit h.cursor rfl rfl (.inl rfl) (.inl rfl)⟩
  | listing text => exact ⟨by rw [Checked.act, showListing_eq h]; rfl, h⟩
  | word => exact ⟨by rw [Checked.act, currentWord_eq h]; rfl, h⟩
  | render => exact ⟨by rw [Checked.act, redraw_eq h.cursor]; rfl, h⟩

theorem bounded_run (h : Bounded limits e) (actions : List Action) :
    Bounded limits (run act e actions) :=
  invariant_run admissible_true (fun a _ _ hb ↦ (act_safe hb a).2) h

/-- A run of the editor that checks is the run of the editor that cuts. -/
theorem foldlM_act_eq (h : Bounded limits e) (actions : List Action) :
    actions.foldlM (fun e a ↦ Checked.act a e) e = some (run act e actions) := by
  induction actions generalizing e with
  | nil => rfl
  | cons a actions ih =>
    obtain ⟨heq, hb⟩ := act_safe h a
    rw [List.foldlM_cons, heq]
    exact ih hb

/-- **The indices of the line editor.** Whatever is done with a new editor, the editor that checks
every index does not panic and is in the state of the one that cuts, with the cursor in the line,
the indices it keeps in the history, and the history within its cap. -/
theorem indices_safe (maxLine maxHistory : ℕ) (actions : List Action) :
    let e := run act (LineEditor.new maxLine maxHistory) actions
    actions.foldlM (fun e a ↦ Checked.act a e) (LineEditor.new maxLine maxHistory) = some e ∧
      e.cursor ≤ e.buf.length ∧
      (∀ i, e.histPos = some i → i < e.history.length) ∧
      (∀ s i, e.search = some s → s.matched = some i → i < e.history.length) ∧
      e.history.length ≤ maxHistory := by
  have hb := bounded_run (.new maxLine maxHistory) actions
  exact ⟨foldlM_act_eq (.new maxLine maxHistory) actions, hb.cursor, fun i ↦ hb.histPos i,
    fun s i hs ↦ hb.matched s hs i, hb.history⟩

end Mimic.LineEditor
