import Mimic.Text

/-!
# The line editor

`shell/line.rs`: the line editor of a terminal, a state machine that consumes the bytes typed and
tells what to echo.

Positions are byte indices, and a slice past the end is cut there.
-/

namespace Mimic

/-- What the network layer should do after a byte. -/
inductive Reaction
  | ignore
  | write (bytes : Bytes)
  | submit (echo : Bytes) (line : Str)
  | eof
  | complete
  deriving DecidableEq

/-- How far an escape sequence has come. -/
inductive Esc
  | none | got | csi
  deriving DecidableEq

/-- The state of a reverse search. -/
structure Search where
  query : Bytes
  /-- The index into the history of the current match. -/
  matched : Option ℕ
  deriving DecidableEq

/-- A bounded single-line editor. -/
structure LineEditor where
  prompt : Bytes
  buf : Bytes
  /-- The cursor, as a byte index into `buf`. -/
  cursor : ℕ
  /-- Text removed by the last kill. -/
  kill : Bytes
  history : List Str
  /-- While browsing the history, the index shown. -/
  histPos : Option ℕ
  /-- The line in progress, while browsing the history. -/
  stash : Bytes
  esc : Esc
  csiParams : Bytes
  search : Option Search
  maxLine : ℕ
  maxHistory : ℕ
  deriving DecidableEq

namespace LineEditor

/-! ### Bytes -/

/-- `u8::is_ascii_whitespace`. -/
def isAsciiWhitespace (b : UInt8) : Bool :=
  b = 0x20 || b = 0x09 || b = 0x0a || b = 0x0c || b = 0x0d

/-- A byte of a line: printable ASCII, or part of another character. -/
def isPrintable (b : UInt8) : Bool := (0x20 ≤ b && b ≤ 0x7e) || 0x80 ≤ b

/-- Line feeds as a terminal wants them. -/
def crlf (text : Str) : Bytes :=
  Text.toUtf8 (text.flatMap fun c ↦ if c = '\n' then ['\r', '\n'] else [c])

/-- The start of the character that the byte at an index is part of. -/
def charStart (bytes : Bytes) : ℕ → ℕ
  | 0 => 0
  | i + 1 => if Text.isContinuation (bytes.getD (i + 1) 0) then charStart bytes i else i + 1

variable (e : LineEditor)

/-- An editor with its caps. -/
def new (maxLine maxHistory : ℕ) : LineEditor where
  prompt := []
  buf := []
  cursor := 0
  kill := []
  history := []
  histPos := none
  stash := []
  esc := .none
  csiParams := []
  search := none
  maxLine := maxLine
  maxHistory := maxHistory

def setPrompt (prompt : Str) : LineEditor := { e with prompt := Text.toUtf8 prompt }

/-! ### Drawing -/

/-- Redraw the whole line and put the cursor back. -/
def redraw : Bytes :=
  let back := ((e.buf.drop e.cursor).filter fun b ↦ !Text.isContinuation b).length
  [0x0d] ++ e.prompt ++ e.buf ++ Text.toUtf8 "\x1b[K".toList ++
    if back > 0 then Text.toUtf8 ("\x1b[".toList ++ Text.decimal back ++ ['D']) else []

/-- The bytes that draw the prompt and the line. -/
def render : Bytes := e.redraw

/-- A reaction that redraws the line. -/
def redrawn : Reaction × LineEditor := (.write e.redraw, e)

/-- A listing on a new line, and the line below it. -/
def showListing (listing : Str) : Bytes :=
  [0x0d, 0x0a] ++ crlf listing ++ (if listing.getLast? = some '\n' then [] else [0x0d, 0x0a]) ++
    e.redraw

def renderSearch : Bytes :=
  match e.search with
  | none => e.redraw
  | some s =>
    let matched := (s.matched.map fun i ↦ e.history.getD i []).getD []
    [0x0d] ++ Text.toUtf8 "(reverse-i-search)`".toList ++ s.query ++ Text.toUtf8 "': ".toList ++
      Text.toUtf8 matched ++ Text.toUtf8 "\x1b[K".toList

/-! ### Positions -/

/-- Where the word ending at the cursor begins. -/
def wordStart : ℕ :=
  e.cursor - ((e.buf.take e.cursor).reverse.takeWhile fun b ↦ !isAsciiWhitespace b).length

/-- The index of the character before `i`. -/
def prevChar (i : ℕ) : ℕ := charStart e.buf (i - 1)

/-- The index just past the character starting at `i`. -/
def nextChar (i : ℕ) : ℕ :=
  i + 1 + ((e.buf.drop (i + 1)).takeWhile Text.isContinuation).length

/-! ### Completion -/

/-- The word just before the cursor, and whether it is the first one on the line. -/
def currentWord : Str × Bool :=
  (Text.fromUtf8Lossy ((e.buf.take e.cursor).drop e.wordStart),
    (e.buf.take e.wordStart).all isAsciiWhitespace)

/-- Replace the current word. -/
def applyCompletion (replacement : Str) (addSpace : Bool) : Bytes × LineEditor :=
  let tail := e.buf.drop e.cursor
  let buf := e.buf.take e.wordStart ++ Text.toUtf8 replacement ++ if addSpace then [0x20] else []
  let tail :=
    if buf.length + tail.length > e.maxLine then tail.take (charStart tail (e.maxLine - buf.length))
    else tail
  let edited := { e with cursor := buf.length, buf := buf ++ tail }
  (edited.redraw, edited)

/-! ### Editing -/

/-- Enter a line in the history. -/
def pushHistory (line : Str) : LineEditor :=
  let line := Text.trim line
  if line = [] ∨ e.history.getLast? = some line then e
  else
    let history := e.history ++ [line]
    { e with history := history.drop (history.length - e.maxHistory) }

def submit : Reaction × LineEditor :=
  let line := Text.fromUtf8Lossy e.buf
  (.submit [0x0d, 0x0a] line,
    { e.pushHistory line with buf := [], cursor := 0, histPos := none, stash := [] })

def insert (byte : UInt8) : Reaction × LineEditor :=
  if e.buf.length ≥ e.maxLine then (.ignore, e)
  else
    let edited := { e with
      buf := e.buf.take e.cursor ++ byte :: e.buf.drop e.cursor
      cursor := e.cursor + 1
      histPos := none }
    if edited.cursor = edited.buf.length then (.write [byte], edited) else edited.redrawn

def backspace : Reaction × LineEditor :=
  if e.cursor = 0 then (.ignore, e)
  else
    let start := e.prevChar e.cursor
    { e with buf := e.buf.take start ++ e.buf.drop e.cursor, cursor := start }.redrawn

def deleteForward : Reaction × LineEditor :=
  if e.cursor ≥ e.buf.length then (.ignore, e)
  else { e with buf := e.buf.take e.cursor ++ e.buf.drop (e.nextChar e.cursor) }.redrawn

def moveHome : Reaction × LineEditor := { e with cursor := 0 }.redrawn

def moveEnd : Reaction × LineEditor := { e with cursor := e.buf.length }.redrawn

def moveLeft : Reaction × LineEditor :=
  if e.cursor = 0 then (.ignore, e)
  else (.write (Text.toUtf8 "\x1b[D".toList), { e with cursor := e.prevChar e.cursor })

def moveRight : Reaction × LineEditor :=
  if e.cursor ≥ e.buf.length then (.ignore, e)
  else (.write (Text.toUtf8 "\x1b[C".toList), { e with cursor := e.nextChar e.cursor })

def killToStart : Reaction × LineEditor :=
  if e.cursor = 0 then (.ignore, e)
  else { e with kill := e.buf.take e.cursor, buf := e.buf.drop e.cursor, cursor := 0 }.redrawn

def killToEnd : Reaction × LineEditor :=
  if e.cursor ≥ e.buf.length then (.ignore, e)
  else { e with kill := e.buf.drop e.cursor, buf := e.buf.take e.cursor }.redrawn

def killWord : Reaction × LineEditor :=
  if e.cursor = 0 then (.ignore, e)
  else
    let before := (e.buf.take e.cursor).reverse.dropWhile isAsciiWhitespace
    let start := (before.dropWhile fun b ↦ !isAsciiWhitespace b).length
    { e with
      kill := (e.buf.take e.cursor).drop start
      buf := e.buf.take start ++ e.buf.drop e.cursor
      cursor := start }.redrawn

/-- Insert the text killed last. -/
def yank : Reaction × LineEditor :=
  if e.kill = [] ∨ e.buf.length + e.kill.length > e.maxLine then (.ignore, e)
  else
    { e with
      buf := e.buf.take e.cursor ++ e.kill ++ e.buf.drop e.cursor
      cursor := e.cursor + e.kill.length
      histPos := none }.redrawn

def clearScreen : Reaction × LineEditor :=
  (.write (Text.toUtf8 "\x1b[H\x1b[2J".toList ++ e.redraw), e)

def interrupt : Reaction × LineEditor :=
  let edited := { e with buf := [], cursor := 0, histPos := none, stash := [] }
  (.write (Text.toUtf8 "^C\r\n".toList ++ edited.redraw), edited)

def ctrlD : Reaction × LineEditor := if e.buf = [] then (.eof, e) else e.deleteForward

/-! ### History -/

/-- Show an entry of the history. -/
def showEntry (i : ℕ) : LineEditor :=
  let buf := Text.toUtf8 (e.history.getD i [])
  { e with histPos := some i, buf := buf, cursor := buf.length }

def historyPrev : Reaction × LineEditor :=
  if e.history = [] then (.ignore, e)
  else
    match e.histPos with
    | none => ({ e with stash := e.buf }.showEntry (e.history.length - 1)).redrawn
    | some 0 => (.ignore, e)
    | some (i + 1) => (e.showEntry i).redrawn

def historyNext : Reaction × LineEditor :=
  match e.histPos with
  | none => (.ignore, e)
  | some i =>
    if i + 1 < e.history.length then (e.showEntry (i + 1)).redrawn
    else
      { e with histPos := none, buf := e.stash, stash := [], cursor := e.stash.length }.redrawn

/-! ### Reverse search -/

/-- A reaction that shows the search. -/
def searching : Reaction × LineEditor := (.write e.renderSearch, e)

/-- The newest entry before an index that contains the query. -/
def findMatch (before : ℕ) (query : Bytes) : Option ℕ :=
  if query = [] then none
  else
    (List.range (min before e.history.length)).reverse.find? fun i ↦
      query <:+: Text.toUtf8 (e.history.getD i [])

def startSearch : Reaction × LineEditor := { e with search := some ⟨[], none⟩ }.searching

/-- The search with another query, matched anew. -/
def searchFor (query : Bytes) : LineEditor :=
  { e with search := some ⟨query, e.findMatch e.history.length query⟩ }

/-- Step to the next older match. -/
def searchStep (s : Search) : LineEditor :=
  let found := e.findMatch (s.matched.getD e.history.length) s.query
  { e with search := some { s with matched := found <|> s.matched } }

/-- Leave the search with its match as the line. -/
def acceptSearch (s : Search) : LineEditor :=
  let buf :=
    match s.matched with
    | some i => (Text.toUtf8 (e.history.getD i [])).take e.maxLine
    | none => e.buf
  { e with search := none, buf := buf, cursor := buf.length, histPos := none }

/-! ### Input -/

/-- A byte outside escape sequences and searches. -/
def inputKey (byte : UInt8) : Reaction × LineEditor :=
  if byte = 0x0d ∨ byte = 0x0a then e.submit
  else if byte = 0x1b then (.ignore, { e with esc := .got })
  else if byte = 0x09 then (.complete, e)
  else if byte = 0x08 ∨ byte = 0x7f then e.backspace
  else if byte = 0x01 then e.moveHome
  else if byte = 0x05 then e.moveEnd
  else if byte = 0x02 then e.moveLeft
  else if byte = 0x06 then e.moveRight
  else if byte = 0x10 then e.historyPrev
  else if byte = 0x0e then e.historyNext
  else if byte = 0x15 then e.killToStart
  else if byte = 0x0b then e.killToEnd
  else if byte = 0x17 then e.killWord
  else if byte = 0x19 then e.yank
  else if byte = 0x0c then e.clearScreen
  else if byte = 0x12 then e.startSearch
  else if byte = 0x03 then e.interrupt
  else if byte = 0x04 then e.ctrlD
  else if isPrintable byte then e.insert byte
  else (.ignore, e)

def inputAfterEsc (byte : UInt8) : Reaction × LineEditor :=
  if byte = 0x5b ∨ byte = 0x4f then (.ignore, { e with esc := .csi, csiParams := [] })
  else (.ignore, { e with esc := .none })

def inputCsi (byte : UInt8) : Reaction × LineEditor :=
  if (0x30 ≤ byte ∧ byte ≤ 0x39) ∨ byte = 0x3b then
    (.ignore, if e.csiParams.length < 8 then { e with csiParams := e.csiParams ++ [byte] } else e)
  else
    let params := e.csiParams
    let e := { e with esc := .none, csiParams := [] }
    if byte = 0x41 then e.historyPrev
    else if byte = 0x42 then e.historyNext
    else if byte = 0x43 then e.moveRight
    else if byte = 0x44 then e.moveLeft
    else if byte = 0x48 then e.moveHome
    else if byte = 0x46 then e.moveEnd
    else if byte = 0x7e then
      if params = [0x31] ∨ params = [0x37] then e.moveHome
      else if params = [0x34] ∨ params = [0x38] then e.moveEnd
      else if params = [0x33] then e.deleteForward
      else (.ignore, e)
    else (.ignore, e)

def inputSearch (s : Search) (byte : UInt8) : Reaction × LineEditor :=
  if byte = 0x0d ∨ byte = 0x0a then (e.acceptSearch s).submit
  else if byte = 0x12 then (e.searchStep s).searching
  else if byte = 0x07 ∨ byte = 0x03 ∨ byte = 0x1b then { e with search := none }.redrawn
  else if byte = 0x08 ∨ byte = 0x7f then (e.searchFor s.query.dropLast).searching
  else if isPrintable byte then
    (e.searchFor (if s.query.length < e.maxLine then s.query ++ [byte] else s.query)).searching
  else
    -- another editing key leaves the search and counts again
    let accepted := e.acceptSearch s
    match accepted.inputKey byte with
    | (.write more, edited) => (.write (accepted.redraw ++ more), edited)
    | (.ignore, edited) => (.write accepted.redraw, edited)
    | other => other

/-- Feed one byte. -/
def input (byte : UInt8) : Reaction × LineEditor :=
  match e.esc, e.search with
  | .got, _ => e.inputAfterEsc byte
  | .csi, _ => e.inputCsi byte
  | .none, some s => e.inputSearch s byte
  | .none, none => e.inputKey byte

end LineEditor

end Mimic
