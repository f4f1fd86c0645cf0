import Mimic.Shell.State

/-!
# Full-screen displays

What `top`, `vi` and `nano` paint when they take the terminal: `TopScreen::render` of
`commands/system.rs` and `EditorScreen::render` of `commands/text.rs`. The first line of `top` reads
the clock, which is a parameter.
-/

namespace Mimic

namespace Interp

/-- Visible buffer rows before the status line. -/
def editorRows : ℕ := 23

/-- Render the whole display of `top`, with the banner of the moment. -/
def TopScreen.render (uptimeBanner : Str) (screen : TopScreen) : Str :=
  "top - ".toList ++ uptimeBanner ++ "\nTasks: ".toList ++
    Text.alignRight 3 (Text.decimal screen.total) ++ " total,   ".toList ++
    Text.decimal screen.running ++ " running, ".toList ++
    Text.alignRight 3 (Text.decimal (screen.total - screen.running)) ++
    (" sleeping,   0 stopped,   0 zombie\n" ++
      "%Cpu(s):  0.3 us,  0.2 sy,  0.0 ni, 99.4 id,  0.1 wa,  0.0 hi,  0.0 si,  0.0 st\n" ++
      "MiB Mem :   1993.4 total,   1468.3 free,    179.0 used,    346.0 buff/cache\n" ++
      "MiB Swap:      0.0 total,      0.0 free,      0.0 used.   1723.6 avail Mem\n" ++
      "\n" ++
      "    PID USER      PR  NI    VIRT    RES    SHR S  %CPU  %MEM     TIME+ COMMAND\n").toList ++
    screen.rows.flatten

namespace EditorScreen

variable (screen : EditorScreen)

/-- The rows of the buffer, with `filler` in the unused ones. -/
def renderRows (filler : Str) : Str :=
  ((screen.lines.take editorRows).map (· ++ ['\n'])).flatten ++
    (List.replicate (editorRows - screen.lines.length) filler).flatten

def renderVi : Str :=
  let rows := screen.renderRows "~\n".toList
  let quoted := '"' :: screen.path ++ ['"']
  if screen.path = [] then rows
  else if screen.present then
    let bytes := (screen.lines.map fun line ↦ Text.byteLen line + 1).sum
    rows ++ quoted ++ [' '] ++ Text.decimal screen.lines.length ++ "L, ".toList ++
      Text.decimal bytes ++ "B\n".toList
  else rows ++ quoted ++ " [New File]\n".toList

def renderNano : Str :=
  "  GNU nano    ".toList ++ (if screen.path = [] then "New Buffer".toList else screen.path) ++
    ['\n'] ++ screen.renderRows ['\n'] ++
    ("^G Help      ^O Write Out ^W Where Is  ^K Cut       ^T Execute   ^C Location\n" ++
      "^X Exit      ^R Read File ^\\ Replace   ^U Paste     ^J Justify   ^_ Go To Line\n").toList

/-- Render the whole display. -/
def render : Str :=
  match screen.kind with
  | .vi => screen.renderVi
  | .nano => screen.renderNano

end EditorScreen

end Interp

end Mimic
