import Mathlib.Tactic

/-!
# One line of a terminal

The line a terminal is on and the column of its cursor, with no wrapping: carriage return, line
feed, printable bytes, and the control sequences that move the cursor in the line or erase.

## Main results

* `feed_printable`: printable bytes written over a line.
* `feed_csi`: a whole control sequence is the control it names.
-/

namespace Terminal

/-- How far a control sequence has come. -/
inductive Mode
  | ground | escape
  | csi (params : List UInt8)
  deriving DecidableEq

/-- The line a terminal is on, and the column of its cursor. -/
structure Screen where
  line : List UInt8
  col : ℕ
  mode : Mode
  deriving DecidableEq

/-- A byte that takes a column. -/
def IsPrintable (b : UInt8) : Prop := 0x20 ≤ b ∧ b ≤ 0x7e

instance : DecidablePred IsPrintable := fun _ ↦ instDecidableAnd

/-- The number that digits write. -/
def value (digits : List UInt8) : ℕ := digits.foldl (fun n b ↦ 10 * n + (b.toNat - 0x30)) 0

/-- The count that a control takes: one, if none is given. -/
def count (params : List UInt8) : ℕ := if params = [] then 1 else value params

/-- Write a byte at the cursor, over what is there, and past the end with blanks before it. -/
def put (t : Screen) (b : UInt8) : Screen :=
  { t with
    line := (t.line ++ List.replicate (t.col - t.line.length) 0x20).take t.col ++
      b :: t.line.drop (t.col + 1)
    col := t.col + 1 }

/-- Cursor right, cursor left, home, clear screen, erase to the end of the line. -/
def control (t : Screen) (params : List UInt8) (final : UInt8) : Screen :=
  if final = 0x43 then { t with col := t.col + count params }
  else if final = 0x44 then { t with col := t.col - count params }
  else if final = 0x48 then { t with col := 0 }
  else if final = 0x4a ∧ params = [0x32] then { t with line := [] }
  else if final = 0x4b ∧ params = [] then { t with line := t.line.take t.col }
  else t

/-- The screen after a byte. -/
def byte (t : Screen) (b : UInt8) : Screen :=
  match t.mode with
  | .ground =>
    if b = 0x1b then { t with mode := .escape }
    else if b = 0x0d then { t with col := 0 }
    else if b = 0x0a then { t with line := [] }
    else if IsPrintable b then put t b
    else t
  | .escape => { t with mode := if b = 0x5b then .csi [] else .ground }
  | .csi params =>
    if 0x40 ≤ b ∧ b ≤ 0x7e then control { t with mode := .ground } params b
    else { t with mode := .csi (params ++ [b]) }

/-- The screen after some bytes. -/
def feed (t : Screen) (bytes : List UInt8) : Screen := bytes.foldl byte t

variable {t : Screen} {line params bytes bytes' : List UInt8} {col : ℕ}

@[simp] theorem feed_nil : feed t [] = t := rfl

@[simp] theorem feed_cons (b : UInt8) : feed t (b :: bytes) = feed (byte t b) bytes := rfl

theorem feed_append : feed t (bytes ++ bytes') = feed (feed t bytes) bytes' := List.foldl_append

theorem byte_printable {b : UInt8} (hb : IsPrintable b) (h : t.mode = .ground) :
    byte t b = put t b := by
  have hne : b ≠ 0x1b ∧ b ≠ 0x0d ∧ b ≠ 0x0a := by
    refine ⟨?_, ?_, ?_⟩ <;>
    · rintro rfl
      exact absurd hb (by decide)
  simp [byte, h, hne, hb]

/-- **Printable bytes** replace what they are written over. -/
theorem feed_printable (h : ∀ b ∈ bytes, IsPrintable b) (hc : col ≤ line.length) :
    feed ⟨line, col, .ground⟩ bytes =
      ⟨line.take col ++ bytes ++ line.drop (col + bytes.length), col + bytes.length, .ground⟩ := by
  induction bytes generalizing line col with
  | nil => simp
  | cons b bytes ih =>
    have hput : put ⟨line, col, .ground⟩ b =
        ⟨line.take col ++ b :: line.drop (col + 1), col + 1, .ground⟩ := by
      simp [put, Nat.sub_eq_zero_of_le hc]
    have hlen : (line.take col).length = col := List.length_take_of_le hc
    have htake : (line.take col ++ b :: line.drop (col + 1)).take (col + 1) =
        line.take col ++ [b] := by
      rw [List.take_append, hlen, List.take_of_length_le (by omega)]
      simp
    have hdrop : (line.take col ++ b :: line.drop (col + 1)).drop (col + 1 + bytes.length) =
        line.drop (col + (bytes.length + 1)) := by
      rw [List.drop_append, hlen, List.drop_eq_nil_of_le (by omega), List.nil_append,
        show col + 1 + bytes.length - col = bytes.length + 1 by omega, List.drop_succ_cons,
        List.drop_drop]
      congr 1
      omega
    rw [feed_cons, byte_printable (h b List.mem_cons_self) rfl, hput,
      ih (fun b hb ↦ h b (List.mem_cons_of_mem _ hb)) (by simp [hlen]), htake, hdrop,
      List.append_assoc _ [b] bytes, List.singleton_append, List.length_cons,
      show col + 1 + bytes.length = col + (bytes.length + 1) by omega]

/-- Parameters are collected up to the final byte. -/
theorem feed_params {collected : List UInt8} (h : t.mode = .csi collected)
    (hp : ∀ b ∈ params, b < 0x40) {final : UInt8} (hf : 0x40 ≤ final ∧ final ≤ 0x7e) :
    feed t (params ++ [final]) =
      control { t with mode := .ground } (collected ++ params) final := by
  induction params generalizing t collected with
  | nil => simp [byte, h, hf]
  | cons b params ih =>
    have hb : ¬(0x40 ≤ b ∧ b ≤ 0x7e) := fun hle ↦
      absurd (hp b List.mem_cons_self) (UInt8.not_lt.mpr hle.1)
    have hbyte : byte t b = { t with mode := .csi (collected ++ [b]) } := by
      simp [byte, h, hb]
    rw [List.cons_append, feed_cons, hbyte, ih rfl fun b hb ↦ hp b (List.mem_cons_of_mem _ hb),
      List.append_assoc, List.singleton_append]

/-- **A control sequence** is the control it names. -/
theorem feed_csi (h : t.mode = .ground) (hp : ∀ b ∈ params, b < 0x40) {final : UInt8}
    (hf : 0x40 ≤ final ∧ final ≤ 0x7e) :
    feed t ([0x1b, 0x5b] ++ params ++ [final]) = control t params final := by
  have hopen : feed t [0x1b, 0x5b] = { t with mode := .csi [] } := by
    simp [byte, h]
  rw [List.append_assoc, feed_append, hopen, feed_params rfl hp hf, List.nil_append, ← h]

end Terminal
