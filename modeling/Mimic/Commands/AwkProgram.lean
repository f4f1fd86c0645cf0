import Mimic.Commands.LineFiles
import Mimic.Foundation.Occurrences
import Mimic.Shell.Interp

/-!
# Programs of `awk`

What `commands/text.rs` accepts of the language of `awk`: rules of a pattern and a `print` action
(`parseAwk`). A pattern is a text between slashes, a comparison of a field, or one of the number of
the line, and `awkMatches` decides whether a rule applies to a line.
-/

namespace Mimic

namespace Awk

open Occurrences

/-! ### Texts -/

/-- `str::strip_prefix`. -/
def stripPrefix (pre text : Str) : Option Str :=
  if pre <+: text then some (text.drop pre.length) else none

/-- `str::strip_suffix`. -/
def stripSuffix (post text : Str) : Option Str :=
  if post <:+ text then some (text.take (text.length - post.length)) else none

/-- `str::trim_end`. -/
def trimEnd (text : Str) : Str := (text.reverse.dropWhile Text.isWhitespace).reverse

/-- `str::split_once`, at a text. -/
def splitOnceAt (sep text : Str) : Option (Str × Str) :=
  (hits sep text).head?.map fun i ↦ (text.take i, text.drop (i + sep.length))

/-! ### Rules -/

inductive AwkPattern
  /-- No pattern: the rule runs on every line. -/
  | always
  /-- `/regex/`, substring matching only. -/
  | contains (needle : Str)
  /-- `$N == "value"` and `$N != "value"`. -/
  | fieldEq (field : ℕ) (value : Str) (negate : Bool)
  /-- `NR == N`. -/
  | lineIs (n : ℕ)
  deriving DecidableEq

/-- One `pattern { action }` rule. Without an action it is a bare pattern. -/
structure AwkRule where
  pattern : AwkPattern
  action : Option (List Str)
  deriving DecidableEq

/-- The loop of `split_awk_rules`. -/
def splitAwkLoop (current : Str) (inString inRegex : Bool) : Str → List Str
  | [] => if Text.trim current = [] then [] else [current]
  | c :: rest =>
    let inString' := if c = '"' ∧ !inRegex then !inString else inString
    let inRegex' := if c = '/' ∧ !inString then !inRegex else inRegex
    if c = '\x7d' ∧ !inString' ∧ !inRegex' then
      (current ++ [c]) :: splitAwkLoop [] inString' inRegex' rest
    else splitAwkLoop (current ++ [c]) inString' inRegex' rest

/-- The rules of a program, split on top-level closing braces. -/
def splitAwkRules (program : Str) : List Str := splitAwkLoop [] false false program

/-- The metacharacters of regular expressions that are refused. -/
def metacharacters : Str := ['*', '+', '?', '[', ']', '(', ')', '|', '\\', '\x7b', '\x7d']

/-- What a `/text/` pattern looks for. -/
def regexNeedle (body : Str) : Str := Text.trimEndMatches '$' (Text.trimStartMatches '^' body)

def parseAwkPattern (source : Str) : Option AwkPattern :=
  let src := Text.trim source
  if src = [] then some .always
  else
    match (stripPrefix ['/'] src).bind (stripSuffix ['/']) with
    | some body =>
      if body.any fun c ↦ metacharacters.contains c then none
      else some (.contains (regexNeedle body))
    | none =>
      match stripPrefix "NR".toList src with
      | some rest =>
        (stripPrefix "==".toList (Text.trim rest)).bind fun rest ↦
          (Interp.parseUsize (Text.trim rest)).map .lineIs
      | none =>
        match stripPrefix ['$'] src with
        | none => none
        | some rest =>
          let negate := decide ("!=".toList <:+: rest)
          let split := if negate then "!=".toList else "==".toList
          (splitOnceAt split rest).bind fun sides ↦
            (Interp.parseUsize (Text.trim sides.1)).map fun field ↦
              let value := Text.trimEndMatches '"' (Text.trimStartMatches '"' (Text.trim sides.2))
              .fieldEq field value negate

/-- A `print a, b` body, as the items to print. -/
def parseAwkPrint (body : Str) : Option (List Str) :=
  let body := Text.trim (Text.trimEndMatches ';' (Text.trim body))
  if body = [] ∨ body = "print".toList then some [['$', '0']]
  else
    (stripPrefix "print ".toList body).map fun rest ↦
      ((rest.splitOn ',').map Text.trim).filter (· ≠ [])

/-- The pattern of a rule, as it stands in the program. -/
def patternSrc (chunk : Str) : Str :=
  match Text.splitOnce '\x7b' chunk with
  | some (p, _) => Text.trim p
  | none => chunk

/-- The action of a rule, as it stands in the program. -/
def actionSrc (chunk : Str) : Option Str :=
  (Text.splitOnce '\x7b' chunk).map fun sides ↦
    Text.trim (Text.trimEndMatches '\x7d' (trimEnd sides.2))

/-- One round of the loop of `parse_awk`. -/
def parseRule (chunk : Str) : Option AwkRule :=
  -- BEGIN and END need a program state this subset does not model
  if "BEGIN".toList <+: patternSrc chunk ∨ "END".toList <+: patternSrc chunk then none
  else
    (parseAwkPattern (patternSrc chunk)).bind fun pattern ↦
      match actionSrc chunk with
      | none => some ⟨pattern, none⟩
      | some body => (parseAwkPrint body).map fun items ↦ ⟨pattern, some items⟩

/-- The rules of a program, as they stand in it. -/
def awkChunks (program : Str) : List Str :=
  ((splitAwkRules program).map Text.trim).filter (· ≠ [])

/-- Parse the supported subset. Anything else is a syntax error. -/
def parseAwk (program : Str) : Option (List AwkRule) :=
  ((awkChunks program).mapM parseRule).filter (· ≠ [])

/-! ### Lines -/

def awkField (n : ℕ) (line : Str) (fields : List Str) : Str :=
  if n = 0 then line else (fields[n - 1]?).getD []

/-- Whether a rule applies to a line. -/
def awkMatches (pattern : AwkPattern) (line : Str) (fields : List Str) (nr : ℕ) : Bool :=
  match pattern with
  | .always => true
  | .contains needle => decide (needle <:+: line)
  | .lineIs n => n == nr
  | .fieldEq field value negate => (awkField field line fields == value) != negate

end Awk

end Mimic
