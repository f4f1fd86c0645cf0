import Mimic.Text

/-!
# The command-line parser

`shell/parser.rs`: finding substitutions, cutting comments and here-documents off a line, splitting
it into segments, pipeline stages and redirections, and splitting text into words.

The source scans bytes, and every byte it looks for is ASCII, so the scans here go over characters:
no byte of a longer character is ever taken for one of those, and a backslash in front of one
protects all of it. The one place where this makes a difference is the end of an arithmetic body,
which the source puts one byte in front of the closing parenthesis (`Substitution.body`).

Where the source steps over a region, the scans carry the number of characters still to be stepped
over (`skip`).
-/

namespace Mimic

namespace Parser

/-! ### Substitutions -/

/-- A `$(…)`, `` `…` `` or `$((…))` region at the front of a text. -/
structure Substitution where
  /-- The number of characters of the region, delimiters included. -/
  length : ℕ
  /-- The text between the delimiters. An arithmetic body ends one byte in front of the last
  parenthesis; where this is inside a character, slicing it out panics (`none`). -/
  body : Option Str
  /-- `$((…))`: the body is an arithmetic expression. -/
  arithmetic : Bool

/-- The number of characters in front of the closing backtick. -/
def closingBacktick (escaped : Bool) : Str → Option ℕ
  | [] => none
  | c :: rest =>
    if escaped then (closingBacktick false rest).map (· + 1)
    else if c = '`' then some 0
    else (closingBacktick (c == '\\') rest).map (· + 1)

/-- Quoting, as the scans track it. -/
structure Quotes where
  inSingle : Bool
  inDouble : Bool
  escaped : Bool
  deriving DecidableEq

namespace Quotes

/-- Outside of any quoting. -/
def start : Quotes := ⟨false, false, false⟩

/-- Neither in single nor in double quotes. -/
def bare (q : Quotes) : Bool := !q.inSingle && !q.inDouble

/-- The character after a backslash is behind. -/
def unescape (q : Quotes) : Quotes := { q with escaped := false }

/-- A backslash or a quote, where it counts as one: the quoting after it. -/
def quote? (q : Quotes) (c : Char) : Option Quotes :=
  if c = '\\' ∧ !q.inSingle then some { q with escaped := true }
  else if c = '\'' ∧ !q.inDouble then some { q with inSingle := !q.inSingle }
  else if c = '"' ∧ !q.inSingle then some { q with inDouble := !q.inDouble }
  else none

end Quotes

/-- The number of characters in front of the parenthesis that closes the first one. -/
def closingParen (depth : ℕ) (q : Quotes) : Str → Option ℕ
  | [] => none
  | c :: rest =>
    if q.escaped then (closingParen depth q.unescape rest).map (· + 1)
    else
      match q.quote? c with
      | some q => (closingParen depth q rest).map (· + 1)
      | none =>
        if c = '(' ∧ q.bare then (closingParen (depth + 1) q rest).map (· + 1)
        else if c = ')' ∧ q.bare then
          if depth = 1 then some 0 else (closingParen (depth - 1) q rest).map (· + 1)
        else (closingParen depth q rest).map (· + 1)

/-- What is between `$((` and the last parenthesis, less its last byte. -/
def arithmeticBody (inner : Str) : Option Str :=
  match inner.getLast? with
  | some c => if c.utf8Size = 1 then some inner.dropLast else none
  | none => none

/-- Recognise a substitution at the front of `text`. -/
def substitutionAt (text : Str) : Option Substitution :=
  match text with
  | '`' :: rest =>
    (closingBacktick false rest).map fun n ↦ ⟨n + 2, some (rest.take n), false⟩
  | '$' :: '(' :: rest =>
    (closingParen 0 Quotes.start ('(' :: rest)).map fun n ↦
      -- the closing parenthesis is character `n` from the opening one on
      if rest.head? = some '(' then
        ⟨n + 2, arithmeticBody ((rest.drop 1).take (n - 2)), true⟩
      else ⟨n + 2, some (rest.take (n - 1)), false⟩
  | _ => none

/-- A region to step over, where the scan is not in single quotes. -/
def skipAt (q : Quotes) (text : Str) : Option ℕ :=
  if q.inSingle then none else (substitutionAt text).map Substitution.length

/-- `u8::is_ascii_whitespace`. -/
def isAsciiWhitespace (c : Char) : Bool :=
  c == ' ' || c == '\t' || c == '\n' || c == '\x0c' || c == '\r'

/-- The number of characters of the word at the front of a text, up to unquoted whitespace or
another redirection. -/
def wordEnd (skip : ℕ) (q : Quotes) : Str → ℕ
  | [] => 0
  | c :: rest =>
    match skip with
    | skip + 1 => wordEnd skip q rest + 1
    | 0 =>
      if q.escaped then wordEnd 0 q.unescape rest + 1
      else
        match skipAt q (c :: rest), q.quote? c with
        | some n, _ => wordEnd (n - 1) q rest + 1
        | none, some q => wordEnd 0 q rest + 1
        | none, none =>
          if (c = '>' ∨ c = '<' ∨ isAsciiWhitespace c) ∧ q.bare then 0
          else wordEnd 0 q rest + 1

/-! ### Here-documents -/

/-- A here-document a line opened. -/
structure Heredoc where
  delimiter : Str
  /-- `<<-`: leading tabs come off every body line and off the terminator. -/
  stripTabs : Bool
  /-- Whether `$VAR` and `$(…)` expand in the body. -/
  expand : Bool
  deriving DecidableEq

/-- Strip the quoting from a delimiter word. -/
def unquote (q : Quotes) : Str → Str
  | [] => []
  | c :: rest =>
    if q.escaped then c :: unquote q.unescape rest
    else
      match q.quote? c with
      | some q => unquote q rest
      | none => c :: unquote q rest

/-- The operator after its `<<`: the here-document, and the rest of the line behind its word. -/
def heredocWord (text : Str) : Option (Heredoc × Str) :=
  let stripTabs := text.head? = some '-'
  let word := (if stripTabs then text.drop 1 else text).dropWhile isAsciiWhitespace
  let n := wordEnd 0 Quotes.start word
  if n = 0 then none
  else
    let raw := word.take n
    let quoted := raw.head? = some '\'' ∨ raw.head? = some '"' ∨ '\\' ∈ raw
    some (⟨unquote Quotes.start raw, stripTabs, !quoted⟩, word.drop n)

/-- The loop of `split_heredoc`, with the text in front of the scan. -/
def splitHeredocLoop (before : Str) (skip : ℕ) (q : Quotes) : Str → Option (Heredoc × Str)
  | [] => none
  | c :: rest =>
    match skip with
    | skip + 1 => splitHeredocLoop (before ++ [c]) skip q rest
    | 0 =>
      if q.escaped then splitHeredocLoop (before ++ [c]) 0 q.unescape rest
      else
        match skipAt q (c :: rest), q.quote? c with
        | some n, _ => splitHeredocLoop (before ++ [c]) (n - 1) q rest
        | none, some q => splitHeredocLoop (before ++ [c]) 0 q rest
        | none, none =>
          if c = '<' ∧ q.bare ∧ rest.head? = some '<' then
            -- `<<<` is a here-string, which opens no body
            if (rest.drop 1).head? = some '<' then splitHeredocLoop (before ++ [c]) 2 q rest
            else (heredocWord (rest.drop 1)).map fun doc ↦ (doc.1, before ++ doc.2)
          else splitHeredocLoop (before ++ [c]) 0 q rest

/-- Find a here-document operator on a line: the here-document, and the line without it. -/
def splitHeredoc (line : Str) : Option (Heredoc × Str) := splitHeredocLoop [] 0 Quotes.start line

/-! ### Comments, segments and stages -/

/-- The loop of `strip_comment`. -/
def stripCommentLoop (skip : ℕ) (q : Quotes) (wordStart : Bool) : Str → Str
  | [] => []
  | c :: rest =>
    match skip with
    | skip + 1 => c :: stripCommentLoop skip q false rest
    | 0 =>
      if q.escaped then c :: stripCommentLoop 0 q.unescape false rest
      else
        match skipAt q (c :: rest), q.quote? c with
        | some n, _ => c :: stripCommentLoop (n - 1) q false rest
        | none, some q => c :: stripCommentLoop 0 q false rest
        | none, none =>
          if c = '#' ∧ wordStart ∧ q.bare then []
          else
            let ends := (c = ';' ∨ c = '&' ∨ c = '|' ∨ isAsciiWhitespace c) ∧ q.bare
            c :: stripCommentLoop 0 q ends rest

/-- Cut a `#` comment off the end of a line. -/
def stripComment (line : Str) : Str := stripCommentLoop 0 Quotes.start true line

/-- Whether a segment runs, based on how the previous one exited. -/
inductive Separator
  | always | andIf | orIf
  deriving DecidableEq

/-- One command of a compound line, with the operator that gates it. -/
structure Segment where
  runIf : Separator
  text : Str
  deriving DecidableEq

/-- Put a character in front of the first of the segments. -/
def pushSegment (c : Char) : List Segment → List Segment
  | [] => []
  | segment :: segments => { segment with text := c :: segment.text } :: segments

/-- The loop of `split_segments`, with the condition of the segment it is in. -/
def splitSegmentsLoop (runIf : Separator) (skip : ℕ) (q : Quotes) : Str → List Segment
  | [] => [⟨runIf, []⟩]
  | c :: rest =>
    match skip with
    | skip + 1 => pushSegment c (splitSegmentsLoop runIf skip q rest)
    | 0 =>
      if q.escaped then pushSegment c (splitSegmentsLoop runIf 0 q.unescape rest)
      else
        match skipAt q (c :: rest), q.quote? c with
        | some n, _ => pushSegment c (splitSegmentsLoop runIf (n - 1) q rest)
        | none, some q => pushSegment c (splitSegmentsLoop runIf 0 q rest)
        | none, none =>
          if c = ';' ∧ q.bare then ⟨runIf, []⟩ :: splitSegmentsLoop .always 0 q rest
          else
            match rest with
            | c' :: rest' =>
              if c = '&' ∧ c' = '&' ∧ q.bare then
                ⟨runIf, []⟩ :: splitSegmentsLoop .andIf 0 q rest'
              else if c = '|' ∧ c' = '|' ∧ q.bare then
                ⟨runIf, []⟩ :: splitSegmentsLoop .orIf 0 q rest'
              else pushSegment c (splitSegmentsLoop runIf 0 q (c' :: rest'))
            | [] => pushSegment c (splitSegmentsLoop runIf 0 q [])

/-- Split a line on `;`, `&&` and `||`. -/
def splitSegments (line : Str) : List Segment := splitSegmentsLoop .always 0 Quotes.start line

/-- Put a character in front of the first of the stages. -/
def pushStage (c : Char) : List Str → List Str
  | [] => []
  | stage :: stages => (c :: stage) :: stages

/-- The loop of `split_pipeline`. -/
def splitPipelineLoop (skip : ℕ) (q : Quotes) : Str → List Str
  | [] => [[]]
  | c :: rest =>
    match skip with
    | skip + 1 => pushStage c (splitPipelineLoop skip q rest)
    | 0 =>
      if q.escaped then pushStage c (splitPipelineLoop 0 q.unescape rest)
      else
        match skipAt q (c :: rest), q.quote? c with
        | some n, _ => pushStage c (splitPipelineLoop (n - 1) q rest)
        | none, some q => pushStage c (splitPipelineLoop 0 q rest)
        | none, none =>
          if c = '|' ∧ q.bare then [] :: splitPipelineLoop 0 q rest
          else pushStage c (splitPipelineLoop 0 q rest)

/-- Split a segment into pipeline stages on `|`. -/
def splitPipeline (segment : Str) : List Str := splitPipelineLoop 0 Quotes.start segment

/-! ### Redirections -/

/-- The output streams a redirection applies to. -/
inductive Stream
  | stdout | stderr | both
  deriving DecidableEq

/-- Where a redirected stream ends up. -/
inductive Target
  /-- A file path, exactly as written. -/
  | file (path : Str) (append : Bool)
  /-- `N>&M`: this stream goes wherever the named one goes. -/
  | dup (stream : Stream)
  deriving DecidableEq

/-- One output redirection stripped off a stage. -/
structure Redirect where
  stream : Stream
  target : Target
  deriving DecidableEq

/-- The text after `>`: where the stream goes, and the number of characters read. -/
def redirectTarget (text : Str) : Except Str (Target × ℕ) :=
  let append := text.head? = some '>'
  let after := if append then text.drop 1 else text
  let width := if append then 1 else 0
  if ¬ append ∧ after.head? = some '&' then
    let fd := (after.drop 1).takeWhile Char.isDigit
    if fd = ['1'] then .ok (.dup .stdout, width + 1 + fd.length)
    else if fd = ['2'] then .ok (.dup .stderr, width + 1 + fd.length)
    else .error ("-bash: ".toList ++ fd ++ ": Bad file descriptor\n".toList)
  else
    let word := after.dropWhile isAsciiWhitespace
    let blanks := after.length - word.length
    let n := wordEnd 0 Quotes.start word
    if n = 0 then .error "-bash: syntax error near unexpected token `newline'\n".toList
    else .ok (.file (word.take n) append, width + blanks + n)

/-- The loop of `split_redirects`: the command text so far, the word the scan is in as long as it is
free of quoting, and whether what is stepped over belongs to the command. -/
def splitRedirectsLoop (command : Str) (word : Option Str) (skip : ℕ) (copy : Bool) (q : Quotes) :
    Str → Except Str (Str × List Redirect)
  | [] => .ok (command, [])
  | c :: rest =>
    match skip with
    | skip + 1 =>
      splitRedirectsLoop (if copy then command ++ [c] else command) word skip copy q rest
    | 0 =>
      if q.escaped then splitRedirectsLoop (command ++ [c]) word 0 true q.unescape rest
      else
        match skipAt q (c :: rest), q.quote? c with
        | some n, _ => splitRedirectsLoop (command ++ [c]) none (n - 1) true q rest
        | none, some q => splitRedirectsLoop (command ++ [c]) none 0 true q rest
        | none, none =>
          if c = '>' ∧ q.bare then
            -- only an exact `1`, `2` or `&` is consumed as the descriptor
            let stream := if word = some ['2'] then .stderr else if word = some ['&'] then .both
              else .stdout
            let kept := if word = some ['1'] ∨ word = some ['2'] ∨ word = some ['&'] then
              command.dropLast else command
            match redirectTarget rest with
            | .error message => .error message
            | .ok (target, n) =>
              (splitRedirectsLoop kept (some []) n false q rest).map fun split ↦
                (split.1, ⟨stream, target⟩ :: split.2)
          else if isAsciiWhitespace c ∧ q.bare then
            splitRedirectsLoop (command ++ [c]) (some []) 0 true q rest
          else splitRedirectsLoop (command ++ [c]) (word.map (· ++ [c])) 0 true q rest

/-- Strip the output redirections off a stage: the remaining command text and the redirections in
the order they were written, or the error text of a malformed one. -/
def splitRedirects (stage : Str) : Except Str (Str × List Redirect) :=
  splitRedirectsLoop [] (some []) 0 true Quotes.start stage

/-! ### Words -/

/-- The characters a backslash escapes in double quotes. -/
def isEscapable (c : Char) : Bool := c == '$' || c == '`' || c == '"' || c == '\\'

/-- The loop of `tokenize`: the words of the rest of a line, with the word the scan is in. -/
def tokenizeLoop (cur : Str) (hasToken inSingle inDouble : Bool) : Str → List Str
  | [] => if hasToken then [cur] else []
  | c :: rest =>
    if c = '\'' ∧ !inDouble then tokenizeLoop cur true (!inSingle) inDouble rest
    else if c = '"' ∧ !inSingle then tokenizeLoop cur true inSingle (!inDouble) rest
    else if c = '\\' ∧ !inSingle then
      match rest with
      | next :: rest' =>
        if !inDouble || isEscapable next then
          tokenizeLoop (cur ++ [next]) true inSingle inDouble rest'
        else tokenizeLoop (cur ++ ['\\']) true inSingle inDouble (next :: rest')
      | [] => tokenizeLoop cur hasToken inSingle inDouble []
    else if Text.isWhitespace c ∧ !inSingle ∧ !inDouble then
      if hasToken then cur :: tokenizeLoop [] false inSingle inDouble rest
      else tokenizeLoop cur false inSingle inDouble rest
    else tokenizeLoop (cur ++ [c]) true inSingle inDouble rest

/-- Split a line into argument words. -/
def tokenize (line : Str) : List Str := tokenizeLoop [] false false false line

end Parser

end Mimic
