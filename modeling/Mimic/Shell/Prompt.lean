import Mimic.Shell.State

/-!
# Prompts

What the network layer asks a shell for between two lines: the prompt, what a pending follow-up line
is, and the history.
-/

namespace Mimic

namespace Interp

/-- Whether what is typed for it is echoed as it is typed. -/
def Pending.echoes : Pending → Bool
  | .heredoc .. => true
  | _ => false

/-- The prompt shown while it is outstanding, if the shell draws one. -/
def Pending.prompt : Pending → Option Str
  | .heredoc .. => some "> ".toList
  | _ => none

namespace Shell

/-- How many lines the history holds. -/
def maxHistory : ℕ := 1000

/-- The prompt. -/
def prompt (s : Shell) : Str :=
  let sigil := if s.uid = 0 then '#' else '$'
  let cwd := s.vfs.pathOf s.cwd
  let home := s.vfs.pathOf s.home
  let display :=
    if cwd = home then ['~']
    else if home ++ ['/'] <+: cwd then '~' :: cwd.drop home.length
    else cwd
  s.username ++ '@' :: s.hostname ++ ':' :: display ++ [sigil, ' ']

/-- Enter a line in the history. -/
def recordHistory (s : Shell) (line : Str) : Shell :=
  let line := Text.trim line
  if line = [] then s
  else
    let history := s.history ++ [line]
    { s with history := history.drop (history.length - maxHistory) }

end Shell

end Interp

end Mimic
