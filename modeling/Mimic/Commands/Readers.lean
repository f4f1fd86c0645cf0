import Mimic.Commands.Peak

/-!
# Reading files

`head`, `tail` and `wc` of `commands/fs.rs`. Like `cat` they go over their operands, and at each of
them they look for a node, for the right to read it and for bytes, in this order (`opened`). What
they print for an operand with bytes depends on the bytes alone.
-/

namespace Mimic

namespace Interp

namespace Readers

/-- What a reader finds at an operand. -/
inductive Opened
  | missing
  | denied
  /-- No bytes to read: a directory. -/
  | directory
  | contents (bytes : Bytes)

/-- Look for a node, for the right to read it and for its bytes. -/
def opened (now : Timestamp) (s : Shell) (path : Str) : Opened :=
  match s.vfs.resolve s.cwd path with
  | none => .missing
  | some id =>
    if !readableBy (s.vfs.node id).metadata s.uid s.gid then .denied
    else
      match (s.vfs.node id).fileBytes now with
      | none => .directory
      | some bytes => .contents bytes

/-- The results of a reader so far. -/
structure Report where
  out : Str
  errs : Str
  status : ℤ

/-- Nothing printed. -/
def Report.start : Report := ⟨[], [], 0⟩

/-- A message and the status that goes with it. -/
def Report.complain (r : Report) (message : Str) : Report :=
  { r with errs := r.errs ++ message, status := 1 }

def Report.print (r : Report) (text : Str) : Report := { r with out := r.out ++ text }

def Report.result (r : Report) : CommandResult := .streams r.out r.errs r.status

/-! ### `head` and `tail` -/

/-- `parse_count`: a numeric count operand, with no sign. -/
def parseCount (text : Str) : Option ℕ :=
  if text = [] ∨ !text.all Char.isDigit then none else parseUsize text

/-- `str::split_inclusive`, at line feeds. -/
def splitInclusive : Str → List Str
  | [] => []
  | c :: rest =>
    if c = '\n' then ['\n'] :: splitInclusive rest
    else
      match splitInclusive rest with
      | [] => [[c]]
      | line :: lines => (c :: line) :: lines

/-- The first elements, or the last ones. -/
def selected {α : Type} (count : ℕ) (fromEnd : Bool) (items : List α) : List α :=
  if fromEnd then items.drop (items.length - count) else items.take (min count items.length)

/-- `select_slice`: the first or last lines (or bytes) as text. -/
def selectSlice (contents : Bytes) (count : ℕ) (byBytes fromEnd : Bool) : Str :=
  if byBytes then Text.fromUtf8Lossy (selected count fromEnd contents)
  else (selected count fromEnd (splitInclusive (Text.fromUtf8Lossy contents))).flatten

/-- The error about a count, of lines or bytes. -/
def invalidCount (cmd : Str) (byBytes : Bool) (value : Str) : CommandResult :=
  let unit := if byBytes then "bytes".toList else "lines".toList
  .err (cmd ++ ": invalid number of ".toList ++ unit ++ ": '".toList ++ value ++ "'\n".toList) 1

/-- The options and operands of `head` and `tail`. -/
structure SliceArgs where
  count : ℕ
  byBytes : Bool
  files : List Str

/-- The loop over the arguments, which stops at the first one that is wrong. -/
def sliceArgs (cmd : Str) (o : SliceArgs) : List Str → Except CommandResult SliceArgs
  | [] => .ok o
  | a :: args =>
    if a = "-n".toList ∨ a = "-c".toList then
      let byBytes := decide (a = "-c".toList)
      match args with
      | [] =>
        .error (.err (cmd ++ ": option requires an argument -- '".toList ++ a.drop 1 ++
          "'\n".toList) 1)
      | value :: args =>
        match parseCount value with
        | none => .error (invalidCount cmd byBytes value)
        | some n => sliceArgs cmd { o with count := n, byBytes := byBytes } args
    else if "-n".toList <+: a then
      match parseCount (a.drop 2) with
      | none => .error (invalidCount cmd false (a.drop 2))
      | some n => sliceArgs cmd { o with count := n, byBytes := false } args
    else if "-c".toList <+: a then
      match parseCount (a.drop 2) with
      | none => .error (invalidCount cmd true (a.drop 2))
      | some n => sliceArgs cmd { o with count := n, byBytes := true } args
    else if a.head? = some '-' ∧ 1 < a.length ∧ (a.drop 1).all Char.isDigit then
      -- the legacy `head -20`
      sliceArgs cmd { o with count := (parseUsize (a.drop 1)).getD 10, byBytes := false } args
    else if a.head? = some '-' ∧ 1 < a.length then
      .error (.err (cmd ++ ": invalid option -- '".toList ++ a.drop 1 ++ "'\n".toList) 1)
    else sliceArgs cmd { o with files := o.files ++ [a] } args

section Slices

variable (look : Str → Opened) (cmd : Str) (o : SliceArgs) (fromEnd : Bool)

/-- One operand of `head` or `tail`. The first one has no blank line in front of its header. -/
def slice (first : Bool) (path : Str) (r : Report) : Report :=
  let cannotOpen := cmd ++ ": cannot open '".toList ++ path ++ "' for reading: ".toList
  match look path with
  | .missing => r.complain (cannotOpen ++ "No such file or directory\n".toList)
  | .denied => r.complain (cannotOpen ++ "Permission denied\n".toList)
  | .directory =>
    r.complain (cmd ++ ": error reading '".toList ++ path ++ "': Is a directory\n".toList)
  | .contents bytes =>
    let header :=
      if 1 < o.files.length then
        (if first then [] else ['\n']) ++ "==> ".toList ++ path ++ " <==\n".toList
      else []
    r.print (header ++ selectSlice bytes o.count o.byBytes fromEnd)

/-- The loop over the operands. -/
def slices (first : Bool) (r : Report) : List Str → Report
  | [] => r
  | path :: paths => slices false (slice look cmd o fromEnd first path r) paths

end Slices

/-- `head_tail`. -/
def headTail (now : Timestamp) (s : Shell) (args : List Str) (fromEnd : Bool) : CommandResult :=
  let cmd := if fromEnd then "tail".toList else "head".toList
  match sliceArgs cmd ⟨10, false, []⟩ args with
  | .error result => result
  | .ok o =>
    if o.files = [] then
      match s.stdin with
      | none => .ok []
      | some input => .ok (selectSlice (Text.toUtf8 input) o.count o.byBytes fromEnd)
    else (slices (opened now s) cmd o fromEnd true .start o.files).result

/-- `head`. -/
def head (now : Timestamp) (s : Shell) (args : List Str) : CommandResult :=
  headTail now s args false

/-- `tail`. -/
def tail (now : Timestamp) (s : Shell) (args : List Str) : CommandResult :=
  headTail now s args true

/-! ### `wc` -/

/-- What `wc` prints. -/
structure Columns where
  lines : Bool
  words : Bool
  bytes : Bool

/-- What `wc` counts. -/
structure Counts where
  lines : ℕ
  words : ℕ
  bytes : ℕ

def Counts.add (c c' : Counts) : Counts :=
  ⟨c.lines + c'.lines, c.words + c'.words, c.bytes + c'.bytes⟩

/-- The options in one argument. -/
def wcFlags (columns : Columns) : Str → Except Char Columns
  | [] => .ok columns
  | ch :: rest =>
    if ch = 'l' then wcFlags { columns with lines := true } rest
    else if ch = 'w' then wcFlags { columns with words := true } rest
    else if ch = 'c' ∨ ch = 'm' then wcFlags { columns with bytes := true } rest
    else .error ch

/-- The options and operands of `wc`. -/
def wcArgs (columns : Columns) (files : List Str) : List Str → Except Char (Columns × List Str)
  | [] => .ok (columns, files)
  | a :: args =>
    if a.head? = some '-' ∧ 1 < a.length ∧ ¬ "--".toList <+: a then
      match wcFlags columns (a.drop 1) with
      | .error other => .error other
      | .ok columns => wcArgs columns files args
    else wcArgs columns (files ++ [a]) args

/-- The counts of a text that takes so many bytes. -/
def countsOf (text : Str) (bytes : ℕ) : Counts :=
  ⟨text.count '\n', (Text.splitWhitespace text).length, bytes⟩

/-- `format_wc`: the counts in fields, with blanks between them. -/
def formatWc (counts : Counts) (columns : Columns) : Str :=
  let field (shown : Bool) (n : ℕ) : List Str :=
    if shown then [Text.alignRight 7 (Text.decimal n)] else []
  List.intercalate [' '] (field columns.lines counts.lines ++ field columns.words counts.words ++
    field columns.bytes counts.bytes)

/-- The counts of a piped input: a single one is not aligned. -/
def wcStdin (columns : Columns) (counts : Counts) : Str :=
  if [columns.lines, columns.words, columns.bytes].count true = 1 then
    Text.decimal (if columns.lines then counts.lines else if columns.words then counts.words
      else counts.bytes) ++ ['\n']
  else formatWc counts columns ++ ['\n']

/-- What `wc` has counted, and how many files. -/
structure Tally where
  report : Report
  total : Counts
  counted : ℕ

/-- One operand of `wc`. -/
def wcFile (look : Str → Opened) (columns : Columns) (t : Tally) (path : Str) : Tally :=
  let complain (message : String) : Tally :=
    { t with report := t.report.complain ("wc: ".toList ++ path ++ message.toList) }
  match look path with
  | .missing => complain ": No such file or directory\n"
  | .denied => complain ": Permission denied\n"
  | .directory => complain ": Is a directory\n"
  | .contents bytes =>
    let counts := countsOf (Text.fromUtf8Lossy bytes) bytes.length
    { report := t.report.print (formatWc counts columns ++ [' '] ++ path ++ ['\n'])
      total := t.total.add counts
      counted := t.counted + 1 }

/-- `wc`. -/
def wc (now : Timestamp) (s : Shell) (args : List Str) : CommandResult :=
  match wcArgs ⟨false, false, false⟩ [] args with
  | .error other =>
    .err ("wc: invalid option -- '".toList ++ [other] ++
      "'\nUsage: wc [OPTION]... [FILE]...\n".toList) 1
  | .ok (columns, files) =>
    let columns :=
      if columns.lines || columns.words || columns.bytes then columns else ⟨true, true, true⟩
    if files = [] then
      match s.stdin with
      | none => .ok []
      | some input => .ok (wcStdin columns (countsOf input (Text.byteLen input)))
    else
      let t := files.foldl (wcFile (opened now s) columns) ⟨.start, ⟨0, 0, 0⟩, 0⟩
      if 1 < t.counted then
        (t.report.print (formatWc t.total columns ++ " total\n".toList)).result
      else t.report.result

end Readers

end Interp

end Mimic
