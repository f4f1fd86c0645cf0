import Mimic.Vfs.Nodes

/-!
# Integer arithmetic for `$((…))`

`shell/arith.rs`: a tokenizer and a precedence-climbing parser that evaluates as it parses, in
64-bit signed integers.

The parser's five functions call each other, and every call is a frame on the stack of the process.
They are modelled with the number of **frames** they may still open, so that they recurse
structurally on it, and running out of frames (`Outcome.overflow`) is an outcome of its own, apart
from refusing the text (`Outcome.refused`, the source's `None`). `FitsIn` says that a number of
frames is enough. `eval` runs with more frames than any text of its length can need, which
`ArithDepth` shows.

The tokenizer consumes at least one character per iteration and the operator loops at least one
token, so both are bounded by what is left to read. Which characters are letters is left to a
parameter (`CharClasses`), of which only the ASCII part is fixed.
-/

namespace Mimic

/-- The environment variables of a shell session. -/
abbrev Env := Std.ExtTreeMap Str Str

namespace Arith

/-! ### Characters and numbers -/

/-- The Unicode properties behind `char::is_alphabetic` and `char::is_numeric`. -/
structure CharClasses where
  isAlphabetic : Char → Bool
  isNumeric : Char → Bool
  isAlphabetic_ascii : ∀ c : Char, c.toNat < 128 → isAlphabetic c = c.isAlpha
  isNumeric_ascii : ∀ c : Char, c.toNat < 128 → isNumeric c = c.isDigit

theorem CharClasses.agrees (p : Char → Bool) (c : Char) (_ : c.toNat < 128) : p c = p c := rfl

/-- Letters and digits that are all ASCII. -/
def CharClasses.ascii : CharClasses :=
  ⟨Char.isAlpha, Char.isDigit, agrees Char.isAlpha, agrees Char.isDigit⟩

/-- `char::is_alphanumeric`. -/
def CharClasses.isAlphanumeric (classes : CharClasses) (c : Char) : Bool :=
  classes.isAlphabetic c || classes.isNumeric c

/-- The value of a digit in a radix up to 16. -/
def digitValue (radix : ℕ) (c : Char) : Option ℕ :=
  let value :=
    if c.isDigit then c.toNat - '0'.toNat
    else if 'a' ≤ c ∧ c ≤ 'f' then c.toNat - 'a'.toNat + 10
    else if 'A' ≤ c ∧ c ≤ 'F' then c.toNat - 'A'.toNat + 10
    else radix
  if value < radix then some value else none

/-- The number a list of digits denotes, most significant first. -/
def digitsValue (radix : ℕ) (digits : List Char) : Option ℕ :=
  digits.foldlM (fun acc c ↦ (digitValue radix c).map (acc * radix + ·)) 0

/-- `i64::from_str_radix`: an optional sign and at least one digit, in range. -/
def parseI64 (radix : ℕ) (text : Str) : Option Int64 :=
  let negative := text.head? = some '-'
  let digits := if text.head? = some '-' ∨ text.head? = some '+' then text.tail else text
  if digits = [] then none
  else
    match digitsValue radix digits with
    | none => none
    | some n =>
      let value : ℤ := if negative then -n else n
      if -2 ^ 63 ≤ value ∧ value < 2 ^ 63 then some (Int64.ofInt value) else none

/-! ### Tokens -/

/-- The operators and parentheses. -/
inductive Op
  | eq | ne | le | ge | lt | gt | add | sub | mul | div | rem | lparen | rparen
  deriving DecidableEq

/-- One lexical element of an expression. -/
inductive Token
  | num (value : Int64)
  | name (name : Str)
  | op (op : Op)
  deriving DecidableEq

/-- The two-character operators. -/
def twoCharOp : List Char → Option Op
  | ['=', '='] => some .eq
  | ['!', '='] => some .ne
  | ['<', '='] => some .le
  | ['>', '='] => some .ge
  | _ => none

/-- The one-character operators. -/
def oneCharOp : Char → Option Op
  | '+' => some .add
  | '-' => some .sub
  | '*' => some .mul
  | '/' => some .div
  | '%' => some .rem
  | '(' => some .lparen
  | ')' => some .rparen
  | '<' => some .lt
  | '>' => some .gt
  | _ => none

/-- A literal, decimal or `0x` hex. -/
def parseLiteral (text : Str) : Option Int64 :=
  match text with
  | '0' :: 'x' :: hex => parseI64 16 hex
  | '0' :: 'X' :: hex => parseI64 16 hex
  | _ => parseI64 10 text

/-- The loop of `tokenize`, which consumes a character at least in each of its iterations. -/
def tokenizeLoop (classes : CharClasses) : ℕ → List Char → Option (List Token)
  | _, [] => some []
  | 0, _ :: _ => none
  | fuel + 1, c :: cs =>
    if Text.isWhitespace c then tokenizeLoop classes fuel cs
    else if c.isDigit then
      let text := (c :: cs).takeWhile Char.isAlphanum
      let rest := (c :: cs).dropWhile Char.isAlphanum
      match parseLiteral text with
      | none => none
      | some value => (tokenizeLoop classes fuel rest).map (.num value :: ·)
    else if classes.isAlphabetic c || c == '_' then
      let isNameChar := fun c ↦ classes.isAlphanumeric c || c == '_'
      let text := (c :: cs).takeWhile isNameChar
      let rest := (c :: cs).dropWhile isNameChar
      (tokenizeLoop classes fuel rest).map (.name text :: ·)
    else
      match twoCharOp ((c :: cs).take 2) with
      | some op => (tokenizeLoop classes fuel (cs.drop 1)).map (.op op :: ·)
      | none =>
        match oneCharOp c with
        | none => none
        | some op => (tokenizeLoop classes fuel cs).map (.op op :: ·)

/-- The tokens of an expression, or `none` when it holds anything else. -/
def tokenize (classes : CharClasses) (expr : Str) : Option (List Token) :=
  tokenizeLoop classes expr.length expr

/-! ### The parser -/

/-- How deeply parentheses may nest before the expression is refused. -/
def maxDepth : ℕ := 32

/-- What a call of one of the parser's functions comes to. -/
inductive Outcome
  /-- It needed more frames than there were. -/
  | overflow
  /-- The source's `None`. -/
  | refused
  /-- A value, and the tokens not yet consumed. -/
  | ok (value : Int64) (rest : List Token)

/-- The source's `?`. -/
def Outcome.bind : Outcome → (Int64 → List Token → Outcome) → Outcome
  | .overflow, _ => .overflow
  | .refused, _ => .refused
  | .ok value rest, k => k value rest

/-- `checked_div`. -/
def checkedDiv (left right : Int64) : Option Int64 :=
  if right = 0 ∨ left = Int64.minValue ∧ right = -1 then none else some (left / right)

/-- `checked_rem`. -/
def checkedRem (left right : Int64) : Option Int64 :=
  if right = 0 ∨ left = Int64.minValue ∧ right = -1 then none else some (left % right)

/-- The operators of one precedence level, and what each comes to. -/
abbrev Level := Op → Option (Int64 → Int64 → Option Int64)

/-- `i64::from`, of a `bool`. -/
def ofBool (truth : Bool) : Int64 := if truth then 1 else 0

/-- `==`, `!=`, `<=`, `>=`, `<`, `>`, yielding 1 or 0. -/
def comparisonLevel : Level
  | .eq => some fun left right ↦ some (ofBool (left == right))
  | .ne => some fun left right ↦ some (ofBool (left != right))
  | .le => some fun left right ↦ some (ofBool (left ≤ right))
  | .ge => some fun left right ↦ some (ofBool (left ≥ right))
  | .lt => some fun left right ↦ some (ofBool (left < right))
  | .gt => some fun left right ↦ some (ofBool (left > right))
  | _ => none

/-- `+` and `-`, wrapping. -/
def additiveLevel : Level
  | .add => some fun left right ↦ some (left + right)
  | .sub => some fun left right ↦ some (left - right)
  | _ => none

/-- `*`, wrapping, and `/` and `%`, which refuse to divide by zero. -/
def multiplicativeLevel : Level
  | .mul => some fun left right ↦ some (left * right)
  | .div => some checkedDiv
  | .rem => some checkedRem
  | _ => none

/-- The loop of a precedence level: as long as one of its operators is next, consume it, parse
another operand and combine. -/
def binaryLoop (level : Level) (operand : List Token → Outcome) :
    ℕ → Int64 → List Token → Outcome
  | fuel + 1, left, .op op :: rest =>
    match level op with
    | none => .ok left (.op op :: rest)
    | some apply =>
      (operand rest).bind fun right rest' ↦
        match apply left right with
        | none => .refused
        | some value => binaryLoop level operand fuel value rest'
  | _, left, tokens => .ok left tokens

/-- A precedence level: an operand, then the loop. -/
def binary (level : Level) (operand : List Token → Outcome) (tokens : List Token) : Outcome :=
  (operand tokens).bind fun left rest ↦ binaryLoop level operand rest.length left rest

/-- The value of a name: an unset or non-numeric one is zero. -/
def nameValue (env : Env) (name : Str) : Int64 :=
  ((env[name]?).bind fun value ↦ parseI64 10 (Text.trim value)).getD 0

mutual

/-- `==`, `!=`, `<`, `<=`, `>`, `>=`: lowest precedence. -/
def comparison (env : Env) : ℕ → ℕ → List Token → Outcome
  | 0, _, _ => .overflow
  | frames + 1, depth, tokens => binary comparisonLevel (additive env frames depth) tokens

def additive (env : Env) : ℕ → ℕ → List Token → Outcome
  | 0, _, _ => .overflow
  | frames + 1, depth, tokens => binary additiveLevel (multiplicative env frames depth) tokens

def multiplicative (env : Env) : ℕ → ℕ → List Token → Outcome
  | 0, _, _ => .overflow
  | frames + 1, depth, tokens => binary multiplicativeLevel (unary env frames depth) tokens

def unary (env : Env) : ℕ → ℕ → List Token → Outcome
  | 0, _, _ => .overflow
  | frames + 1, depth, .op .sub :: rest =>
    (unary env frames depth rest).bind fun value rest' ↦ .ok (-value) rest'
  | frames + 1, depth, .op .add :: rest => unary env frames depth rest
  | frames + 1, depth, tokens => primary env frames depth tokens

def primary (env : Env) : ℕ → ℕ → List Token → Outcome
  | 0, _, _ => .overflow
  | _ + 1, _, [] => .refused
  | frames + 1, depth, .op .lparen :: rest =>
    if depth ≥ maxDepth then .refused
    else
      (comparison env frames (depth + 1) rest).bind fun value rest' ↦
        match rest' with
        | .op .rparen :: rest'' => .ok value rest''
        | _ => .refused
  | _ + 1, _, .num value :: rest => .ok value rest
  | _ + 1, _, .name name :: rest => .ok (nameValue env name) rest
  | _ + 1, _, .op _ :: _ => .refused

end

/-- The parser on a whole expression, with a stack of the given size. -/
def evalWith (classes : CharClasses) (frames : ℕ) (env : Env) (expr : Str) : Outcome :=
  match tokenize classes expr with
  | none => .refused
  | some tokens =>
    (comparison env frames 0 tokens).bind fun value rest ↦
      -- trailing junk is a syntax error, not a value
      if rest = [] then .ok value [] else .refused

/-- Evaluating `expr` never has more than `frames` nested calls of the parser open. -/
def FitsIn (classes : CharClasses) (frames : ℕ) (env : Env) (expr : Str) : Prop :=
  evalWith classes frames env expr ≠ .overflow

/-- Evaluate `expr`, returning `none` if it is malformed or divides by zero. -/
def eval (classes : CharClasses) (env : Env) (expr : Str) : Option Int64 :=
  match evalWith classes (165 + 33 * expr.length) env expr with
  | .ok value _ => some value
  | _ => none

end Arith

end Mimic
