import Mimic.Commands.Readers
import Mimic.Commands.WordMatch
import Mimic.Vfs.Preorder

/-!
# `grep`

`grep` of `commands/fs.rs`: literal search in the lines of files, of whole trees or of what is piped
in. What it prints is built up line by line in one text, and some options stop the search in a file
early.
-/

namespace Mimic

namespace Interp

namespace Grep

open Readers WordMatch Occurrences

/-! ### Searching a text -/

/-- The options that the search looks at. -/
structure GrepFlags where
  ignoreCase : Bool
  invert : Bool
  lineNumbers : Bool
  countOnly : Bool
  showFilename : Bool
  quiet : Bool
  filesWithMatches : Bool
  wordRegexp : Bool
  onlyMatching : Bool

/-- What the standard library knows about characters: their classes, and the text in lower case. -/
structure Unicode where
  classes : Arith.CharClasses
  toLowercase : Str → Str

/-- `str::match_indices`, without the matched texts. -/
def matchIndices (needle hay : Str) : List ℕ :=
  if needle = [] then List.range (hay.length + 1) else hits needle hay

/-- `str::get` of a range of bytes. -/
def getBytes (start len : ℕ) (text : Str) : Option Str :=
  let front := Text.takeBytes start text
  let mid := Text.takeBytes len (text.drop front.length)
  if Text.byteLen front = start ∧ Text.byteLen mid = len then some mid else none

/-- What a search has found. -/
structure Found where
  out : Str
  errs : Str
  anyMatch : Bool

/-- Nothing found yet. -/
def Found.start : Found := ⟨[], [], false⟩

def Found.print (f : Found) (text : Str) : Found := { f with out := f.out ++ text }

def Found.complain (f : Found) (message : Str) : Found := { f with errs := f.errs ++ message }

section Search

variable (u : Unicode) (flags : GrepFlags) (needle : Str)

/-- The line that is searched for the needle. -/
def hayOf (line : Str) : Str := if flags.ignoreCase then u.toLowercase line else line

/-- Whether the line has the needle. -/
def hit (line : Str) : Bool :=
  if flags.wordRegexp then wordMatch u.classes (hayOf u flags line) needle
  else decide (needle <:+: hayOf u flags line)

/-- Whether the line is one of those to report. -/
def selects (line : Str) : Bool := hit u flags needle line != flags.invert

/-- What is printed of a line: all of it, or the parts that match. The places are those in the line
that was searched, and the text is taken from the line as it is written. -/
def shown (line : Str) : Str :=
  if flags.onlyMatching && !flags.invert then
    let hay := hayOf u flags line
    (matchIndices needle hay).flatMap fun i ↦
      (getBytes (Text.byteLen (hay.take i)) (Text.byteLen needle) line).getD needle ++ ['\n']
  else line ++ ['\n']

/-- What stands in front of a line. -/
def label (path : Str) (i : ℕ) : Str :=
  (if flags.showFilename then path ++ [':'] else []) ++
    if flags.lineNumbers then Text.decimal (i + 1) ++ [':'] else []

/-- The loop of `grep_text` from line `i` on, with the number of lines selected so far. -/
def grepLines (path : Str) (i count : ℕ) (f : Found) : List Str → Found
  | [] =>
    if flags.countOnly then
      f.print ((if flags.showFilename then path ++ [':'] else []) ++ Text.decimal count ++ ['\n'])
    else f
  | line :: lines =>
    if selects u flags needle line then
      let f := { f with anyMatch := true }
      if flags.filesWithMatches then f.print (path ++ ['\n'])
      else if flags.quiet then f
      else
        let f := if flags.countOnly then f
          else f.print (label flags path i ++ shown u flags needle line)
        grepLines path (i + 1) (count + 1) f lines
    else grepLines path (i + 1) count f lines

/-- `grep_text`. -/
def grepText (text path : Str) (f : Found) : Found :=
  grepLines u flags needle path 0 0 f (Text.lines text)

/-- `grep_file`. -/
def grepFile (now : Timestamp) (v : Vfs) (id : NodeId) (path : Str) (f : Found) : Found :=
  match (v.node id).fileBytes now with
  | none => f
  | some bytes => grepText u flags needle (Text.fromUtf8Lossy bytes) path f

end Search

/-- The path of an entry of a directory. -/
def childPath (path name : Str) : Str := Text.trimEndMatches '/' path ++ '/' :: name

/-- `grep_dir`, as many levels down as there are left. -/
def grepDir (u : Unicode) (now : Timestamp) (v : Vfs) (needle : Str) (uid gid : UInt32) :
    ℕ → GrepFlags → NodeId → Str → Found → Found
  | 0, _, _, _, f => f
  | levels + 1, flags, dir, path, f =>
    match v.entries dir with
    | none => f
    | some entries =>
      let flags := { flags with showFilename := true }
      entries.foldl (fun f e ↦
        let child := childPath path e.1
        if (v.node e.2).metadata.isDir then
          grepDir u now v needle uid gid levels flags e.2 child f
        else if readableBy (v.node e.2).metadata uid gid then
          grepFile u flags needle now v e.2 child f
        else f.complain ("grep: ".toList ++ child ++ ": Permission denied\n".toList)) f

/-! ### The command -/

/-- The options and operands of `grep`. -/
structure GrepArgs where
  flags : GrepFlags
  recursive : Bool
  suppressErrors : Bool
  forceFilename : Bool
  noFilename : Bool
  pattern : Option Str
  paths : List Str
  /-- The next argument is the pattern of `-e`. -/
  expectPattern : Bool

/-- No option. -/
def GrepArgs.start : GrepArgs :=
  ⟨⟨false, false, false, false, false, false, false, false, false⟩, false, false, false, false,
    none, [], false⟩

/-- A long option; the others are accepted. -/
def longFlag (o : GrepArgs) (arg : Str) : GrepArgs :=
  if arg = "--ignore-case".toList then { o with flags := { o.flags with ignoreCase := true } }
  else if arg = "--invert-match".toList then { o with flags := { o.flags with invert := true } }
  else if arg = "--line-number".toList then { o with flags := { o.flags with lineNumbers := true } }
  else if arg = "--count".toList then { o with flags := { o.flags with countOnly := true } }
  else if arg = "--quiet".toList ∨ arg = "--silent".toList then
    { o with flags := { o.flags with quiet := true } }
  else if arg = "--files-with-matches".toList then
    { o with flags := { o.flags with filesWithMatches := true } }
  else if arg = "--word-regexp".toList then { o with flags := { o.flags with wordRegexp := true } }
  else if arg = "--only-matching".toList then
    { o with flags := { o.flags with onlyMatching := true } }
  else if arg = "--recursive".toList ∨ arg = "--dereference-recursive".toList then
    { o with recursive := true }
  else if arg = "--no-messages".toList then { o with suppressErrors := true }
  else if arg = "--with-filename".toList then { o with forceFilename := true }
  else if arg = "--no-filename".toList then { o with noFilename := true }
  else o

/-- A short option; the others are accepted. -/
def shortFlag (o : GrepArgs) (ch : Char) : GrepArgs :=
  if ch = 'i' ∨ ch = 'y' then { o with flags := { o.flags with ignoreCase := true } }
  else if ch = 'v' then { o with flags := { o.flags with invert := true } }
  else if ch = 'n' then { o with flags := { o.flags with lineNumbers := true } }
  else if ch = 'c' then { o with flags := { o.flags with countOnly := true } }
  else if ch = 'r' ∨ ch = 'R' then { o with recursive := true }
  else if ch = 'q' then { o with flags := { o.flags with quiet := true } }
  else if ch = 'l' then { o with flags := { o.flags with filesWithMatches := true } }
  else if ch = 'w' then { o with flags := { o.flags with wordRegexp := true } }
  else if ch = 'o' then { o with flags := { o.flags with onlyMatching := true } }
  else if ch = 's' then { o with suppressErrors := true }
  else if ch = 'H' then { o with forceFilename := true }
  else if ch = 'h' then { o with noFilename := true }
  else if ch = 'e' then { o with expectPattern := true }
  else o

/-- One argument. -/
def grepArg (o : GrepArgs) (arg : Str) : GrepArgs :=
  if o.expectPattern then { o with pattern := some arg, expectPattern := false }
  else if "--".toList <+: arg then longFlag o arg
  else if arg.head? = some '-' ∧ 1 < arg.length then (arg.drop 1).foldl shortFlag o
  else if o.pattern = none then { o with pattern := some arg }
  else { o with paths := o.paths ++ [arg] }

section Command

variable (u : Unicode) (now : Timestamp) (s : Shell)

/-- One operand of `grep`. -/
def grepPath (o : GrepArgs) (needle : Str) (flags : GrepFlags) (f : Found) (path : Str) : Found :=
  let complain (message : String) : Found :=
    f.complain ("grep: ".toList ++ path ++ message.toList)
  match s.vfs.resolve s.cwd path with
  | none => complain ": No such file or directory\n"
  | some id =>
    if (s.vfs.node id).metadata.isDir then
      if o.recursive then
        grepDir u now s.vfs needle s.uid s.gid (s.vfs.nodes.length + 1) flags id path f
      else complain ": Is a directory\n"
    else if !readableBy (s.vfs.node id).metadata s.uid s.gid then
      complain ": Permission denied\n"
    else grepFile u flags needle now s.vfs id path f

/-- Whether the names of the files are printed. -/
def showsFilename (o : GrepArgs) : Bool :=
  o.forceFilename ||
    (!o.noFilename && (decide (1 < o.paths.length) || o.recursive || o.flags.filesWithMatches))

/-- `grep` with its arguments read. -/
def grepRun (o : GrepArgs) : CommandResult :=
  match o.pattern with
  | none => .err "Usage: grep [OPTION]... PATTERNS [FILE]...\n".toList 2
  | some pattern =>
    let needle := if o.flags.ignoreCase then u.toLowercase pattern else pattern
    if o.paths = [] then
      match s.stdin with
      | none => .err [] 1
      | some input =>
        let f := grepText u o.flags needle input "(standard input)".toList .start
        let out := if o.flags.quiet then [] else f.out
        if f.anyMatch then .ok out else .err out 1
    else
      let flags := { o.flags with showFilename := showsFilename o }
      let f := o.paths.foldl (grepPath u now s o needle flags) .start
      let out := if o.flags.quiet then [] else f.out
      let errs := if o.flags.quiet || o.suppressErrors then [] else f.errs
      .streams out errs (if f.anyMatch then 0 else 1)

/-- `grep`. -/
def grep (args : List Str) : CommandResult := grepRun u now s (args.foldl grepArg .start)

end Command

end Grep

end Interp

end Mimic
