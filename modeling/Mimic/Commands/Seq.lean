import Mimic.Shell.ArithTokens
import Mimic.Shell.State

/-!
# Sequences

`seq` (`commands/text.rs`) prints numbers from the first one on, as long as they are not beyond the
last one and the output is not too long. The loop adds the step to what it has just printed before
it looks at the bound, and nothing looks at whether the sum is an `i64`. Where it is not, a build
with overflow checks panics, and one without goes on with a number from the other end, which is not
beyond the last one either. That is what happens if the number behind the last one printed is no
`i64` and the output has room left (`Overruns`), and everything is as it should be otherwise
(`seqLoop_exact_iff`).
-/

namespace Mimic

namespace Seq

open Interp (maxCommandOutputBytes CommandResult)

/-! ### The command -/

/-- Flags and operands. -/
def splitArgs (args : List Str) : List Str × List Str :=
  let rec go (onlyOperands : Bool) (flags operands : List Str) : List Str → List Str × List Str
    | [] => (flags, operands)
    | a :: args =>
      if onlyOperands then go true flags (operands ++ [a]) args
      else if a = "--".toList then go true flags operands args
      else if a.head? = some '-' ∧ Text.byteLen a > 1 then go false (flags ++ [a]) operands args
      else go false flags (operands ++ [a]) args
  go false [] [] args

/-- `i += step`: with overflow checks it panics if the sum is no `i64`, and without it wraps. -/
def advance (checks : Bool) (i step : Int64) : Option Int64 :=
  if checks ∧ ¬ (-2 ^ 63 ≤ i.toInt + step.toInt ∧ i.toInt + step.toInt < 2 ^ 63) then none
  else some (i + step)

/-- The loop from `i` on, with what is printed so far. -/
def seqLoop (checks : Bool) (step last i : Int64) (out : Str) : Option Str :=
  if 0 < step ∧ i ≤ last ∨ step < 0 ∧ last ≤ i then
    if maxCommandOutputBytes < Text.byteLen (out ++ (Text.decimalInt i.toInt ++ ['\n'])) then
      some (out ++ (Text.decimalInt i.toInt ++ ['\n']))
    else
      match advance checks i step with
      | none => none
      | some i' => seqLoop checks step last i' (out ++ (Text.decimalInt i.toInt ++ ['\n']))
  else some out
termination_by maxCommandOutputBytes + 1 - Text.byteLen out
decreasing_by
  have hpos := Char.utf8Size_pos '\n'
  simp only [Text.byteLen_append, Text.byteLen_cons] at *
  omega

/-- `seq [FIRST [INCREMENT]] LAST`, with a panic for none. -/
def seq (checks : Bool) (args : List Str) : Option CommandResult :=
  let nums := (splitArgs args).2.filterMap (Arith.parseI64 10)
  let run (first step last : Int64) : Option CommandResult :=
    if step = 0 then some (.err "seq: invalid Zero increment value: '0'\n".toList 1)
    else (seqLoop checks step last first []).map .ok
  match nums with
  | [last] => run 1 1 last
  | [first, last] => run first 1 last
  | [first, step, last] => run first step last
  | _ =>
    some (.err "seq: missing operand\nTry 'seq --help' for more information.\n".toList 1)

/-! ### From the command line to the loop -/

theorem numeral_decimal (n : ℕ) : Arith.Numeral 10 (Text.decimal n) n :=
  Arith.numeral_toDigits (by decide) le_rfl n

/-- **Numbers are read as they are printed.** -/
theorem parseI64_decimalInt (v : Int64) :
    Arith.parseI64 10 (Text.decimalInt v.toInt) = some v := by
  have hrange : -2 ^ 63 ≤ v.toInt ∧ v.toInt < 2 ^ 63 := ⟨v.le_toInt, v.toInt_lt⟩
  obtain ⟨hne, hvalue⟩ := Arith.numeral_iff.mp (numeral_decimal v.toInt.natAbs)
  have hhead (c : Char) (hc : (Text.decimal v.toInt.natAbs).head? = some c) : c.isDigit :=
    Text.isDigit_of_mem_decimal (List.mem_of_mem_head? hc)
  have hminus : (Text.decimal v.toInt.natAbs).head? ≠ some '-' :=
    fun h ↦ absurd (hhead _ h) (by decide)
  have hplus : (Text.decimal v.toInt.natAbs).head? ≠ some '+' :=
    fun h ↦ absurd (hhead _ h) (by decide)
  rw [Text.decimalInt]
  split
  · rename_i hneg
    simp only [Arith.parseI64, List.head?_cons, List.tail_cons, true_or, if_true, if_neg hne,
      hvalue]
    rw [Int.natCast_natAbs, abs_of_neg hneg, neg_neg, if_pos hrange, Int64.ofInt_toInt]
  · rename_i hpos
    simp only [Arith.parseI64, hminus, hplus, or_self, if_false, if_neg hne, hvalue]
    rw [Int.natCast_natAbs, abs_of_nonneg (not_lt.mp hpos), if_pos hrange, Int64.ofInt_toInt]

/-- Behind `--` every three numbers reach the loop, the negative ones too. -/
theorem seq_operands (checks : Bool) (first step last : Int64) (hstep : step ≠ 0) :
    seq checks ("--".toList :: [first, step, last].map fun v ↦ Text.decimalInt v.toInt) =
      (seqLoop checks step last first []).map .ok := by
  have hsplit : (splitArgs ("--".toList ::
      [first, step, last].map fun v ↦ Text.decimalInt v.toInt)).2 =
      [first, step, last].map fun v ↦ Text.decimalInt v.toInt := rfl
  rw [seq, hsplit, List.filterMap_map]
  simp only [Function.comp_def, parseI64_decimalInt, List.filterMap_some, if_neg hstep]

/-! ### What is to be printed -/

variable {checks : Bool} {first step last i : Int64} {out : Str} {n : ℕ}

/-- The number after `n` steps. -/
def term (first step : Int64) (n : ℕ) : ℤ := first.toInt + n * step.toInt

/-- A number that is not beyond the last one. -/
def InReach (step last : Int64) (v : ℤ) : Prop :=
  if 0 < step.toInt then v ≤ last.toInt else last.toInt ≤ v

instance (step last : Int64) (v : ℤ) : Decidable (InReach step last v) :=
  inferInstanceAs (Decidable (ite _ _ _))

/-- A number that is an `i64`. -/
def IsI64 (v : ℤ) : Prop := -2 ^ 63 ≤ v ∧ v < 2 ^ 63

/-- A line for each of the first `n` numbers. -/
def linesUpTo (first step : Int64) (n : ℕ) : Str :=
  (List.range n).flatMap fun k ↦ Text.decimalInt (term first step k) ++ ['\n']

/-- The numbers up to the last one that is not beyond `last`, or fewer if the output is too long
with the last of them and with none before. -/
def IsSeq (first step last : Int64) (out : Str) : Prop :=
  ∃ n, out = linesUpTo first step n ∧
    (∀ k < n, InReach step last (term first step k) ∧
      Text.byteLen (linesUpTo first step k) ≤ maxCommandOutputBytes) ∧
    (¬ InReach step last (term first step n) ∨
      maxCommandOutputBytes < Text.byteLen (linesUpTo first step n))

/-- After some numbers that are not beyond the last one the next is no `i64`, and the output may
still grow. -/
def Overruns (first step last : Int64) : Prop :=
  ∃ n, 0 < n ∧ (∀ k < n, InReach step last (term first step k)) ∧
    ¬ IsI64 (term first step n) ∧ Text.byteLen (linesUpTo first step n) ≤ maxCommandOutputBytes

theorem linesUpTo_succ (first step : Int64) (n : ℕ) : linesUpTo first step (n + 1) =
    linesUpTo first step n ++ (Text.decimalInt (term first step n) ++ ['\n']) := by
  rw [linesUpTo, List.range_succ, List.flatMap_append, List.flatMap_singleton, linesUpTo]

theorem byteLen_linesUpTo_lt (first step : Int64) (n : ℕ) :
    Text.byteLen (linesUpTo first step n) < Text.byteLen (linesUpTo first step (n + 1)) := by
  have hpos := Char.utf8Size_pos '\n'
  rw [linesUpTo_succ]
  simp only [Text.byteLen_append, Text.byteLen_cons]
  omega

theorem byteLen_linesUpTo_mono (first step : Int64) :
    StrictMono fun n ↦ Text.byteLen (linesUpTo first step n) :=
  strictMono_nat_of_lt_succ (byteLen_linesUpTo_lt first step)

/-! ### One round -/

theorem inReach_iff (hstep : step ≠ 0) :
    (0 < step ∧ i ≤ last ∨ step < 0 ∧ last ≤ i) ↔ InReach step last i.toInt := by
  have hne : step.toInt ≠ 0 := fun h ↦ hstep (Int64.toInt_inj.mp h)
  simp only [InReach, Int64.lt_iff_toInt_lt, Int64.le_iff_toInt_le, Int64.toInt_zero]
  split <;> omega

theorem isI64_toInt (i : Int64) : IsI64 i.toInt := ⟨i.le_toInt, i.toInt_lt⟩

theorem isI64_of_inReach (h : InReach step last (i.toInt + n * step.toInt)) :
    IsI64 (i.toInt + n * step.toInt) := by
  have hi := isI64_toInt i
  have hlast := isI64_toInt last
  rw [InReach] at h
  rw [IsI64] at hi hlast ⊢
  split at h
  · rename_i hpos
    have hle : 0 ≤ n * step.toInt := mul_nonneg (Nat.cast_nonneg n) hpos.le
    omega
  · rename_i hneg
    have hle : n * step.toInt ≤ 0 :=
      mul_nonpos_of_nonneg_of_nonpos (Nat.cast_nonneg n) (not_lt.mp hneg)
    omega

theorem advance_of_isI64 (checks : Bool) (h : IsI64 (i.toInt + step.toInt)) :
    advance checks i step = some (i + step) ∧ (i + step).toInt = i.toInt + step.toInt := by
  refine ⟨if_neg fun hover ↦ hover.2 h, ?_⟩
  rw [Int64.toInt_add]
  exact Int.bmod_eq_of_le (by have := h.1; omega) (by have := h.2; omega)

/-- **A sum that is no `i64`** ends the program, or wraps to a number that is not beyond the last
one. -/
theorem advance_of_not_isI64 (checks : Bool) (hstep : step ≠ 0) (hi : InReach step last i.toInt)
    (h : ¬ IsI64 (i.toInt + step.toInt)) :
    advance checks i step = none ∨
      advance checks i step = some (i + step) ∧ InReach step last (i + step).toInt := by
  rcases Bool.eq_false_or_eq_true checks with rfl | rfl
  · exact Or.inl (if_pos ⟨rfl, h⟩)
  · refine Or.inr ⟨if_neg (by simp), ?_⟩
    have hne : step.toInt ≠ 0 := fun h ↦ hstep (Int64.toInt_inj.mp h)
    have hirange := isI64_toInt i
    have hsrange := isI64_toInt step
    have hlrange := isI64_toInt last
    rw [Int64.toInt_add, Int.bmod_def]
    rw [InReach] at hi ⊢
    rw [IsI64] at h hirange hsrange hlrange
    split at hi <;> split_ifs <;> omega

/-- What is printed stays. -/
theorem le_of_seqLoop {out' : Str} (h : seqLoop checks step last i out = some out') :
    Text.byteLen out ≤ Text.byteLen out' := by
  fun_induction seqLoop checks step last i out with
  | case1 i out _ _ =>
    obtain rfl := Option.some.inj h
    rw [Text.byteLen_append]
    exact Nat.le_add_right _ _
  | case2 => cases h
  | case3 i out _ _ i' _ ih =>
    refine le_trans ?_ (ih h)
    rw [Text.byteLen_append]
    exact Nat.le_add_right _ _
  | case4 =>
    obtain rfl := Option.some.inj h
    exact le_rfl

/-- What is not beyond the last number is printed. -/
theorem lt_of_seqLoop {out' : Str} (hstep : step ≠ 0) (hreach : InReach step last i.toInt)
    (h : seqLoop checks step last i out = some out') : Text.byteLen out < Text.byteLen out' := by
  have hline : Text.byteLen out <
      Text.byteLen (out ++ (Text.decimalInt i.toInt ++ ['\n'])) := by
    have hpos := Char.utf8Size_pos '\n'
    simp only [Text.byteLen_append, Text.byteLen_cons]
    omega
  rw [seqLoop, if_pos ((inReach_iff hstep).mpr hreach)] at h
  split at h
  · obtain rfl := Option.some.inj h
    exact hline
  split at h
  · cases h
  · exact hline.trans_le (le_of_seqLoop h)

/-! ### The loop -/

theorem term_succ (first step : Int64) (n : ℕ) :
    term first step (n + 1) = term first step n + step.toInt := by
  rw [term, term, Nat.cast_succ, add_one_mul, add_assoc]

theorem seqLoop_round (hstep : step ≠ 0) (hi : i.toInt = term first step n)
    (hreach : InReach step last (term first step n))
    (hroom : Text.byteLen (linesUpTo first step (n + 1)) ≤ maxCommandOutputBytes) :
    seqLoop checks step last i (linesUpTo first step n) =
      (advance checks i step).bind fun i' ↦
        seqLoop checks step last i' (linesUpTo first step (n + 1)) := by
  rw [linesUpTo_succ, ← hi] at hroom ⊢
  rw [← hi] at hreach
  rw [seqLoop, if_pos ((inReach_iff hstep).mpr hreach), if_neg (Nat.not_lt.mpr hroom)]
  rcases advance checks i step with - | i' <;> rfl

/-- **After some rounds** the loop has printed as many numbers and is at the next one. -/
theorem seqLoop_rounds (hstep : step ≠ 0)
    (hreach : ∀ k < n, InReach step last (term first step k))
    (hroom : ∀ k ≤ n, Text.byteLen (linesUpTo first step k) ≤ maxCommandOutputBytes)
    (hfits : IsI64 (term first step n)) :
    ∃ i : Int64, i.toInt = term first step n ∧
      seqLoop checks step last first [] = seqLoop checks step last i (linesUpTo first step n) := by
  induction n with
  | zero => exact ⟨first, by rw [term, Nat.cast_zero, zero_mul, add_zero], rfl⟩
  | succ n ih =>
    have hlast := hreach n (Nat.lt_succ_self n)
    obtain ⟨i, hi, hloop⟩ := ih (fun k hk ↦ hreach k (Nat.lt_succ_of_lt hk))
      (fun k hk ↦ hroom k (Nat.le_succ_of_le hk)) (isI64_of_inReach hlast)
    rw [term_succ, ← hi] at hfits
    obtain ⟨hadvance, hsum⟩ := advance_of_isI64 checks hfits
    refine ⟨i + step, by rw [hsum, hi, term_succ], ?_⟩
    rw [hloop, seqLoop_round hstep hi hlast (hroom _ le_rfl), hadvance, Option.bind_some]

/-- Where the loop is to stop: behind the last number, or with an output that is too long. -/
def Stops (first step last : Int64) (n : ℕ) : Prop :=
  ¬ InReach step last (term first step n) ∨
    maxCommandOutputBytes < Text.byteLen (linesUpTo first step n)

theorem exists_stops (first step last : Int64) : ∃ n, Stops first step last n ∧
    ∀ k < n, InReach step last (term first step k) ∧
      Text.byteLen (linesUpTo first step k) ≤ maxCommandOutputBytes := by
  classical
  have hstops : ∃ n, Stops first step last n :=
    ⟨maxCommandOutputBytes + 1, Or.inr ((byteLen_linesUpTo_mono first step).le_apply)⟩
  refine ⟨Nat.find hstops, Nat.find_spec hstops, fun k hk ↦ ?_⟩
  have hgoes := Nat.find_min hstops hk
  rw [Stops, not_or, not_not, not_lt] at hgoes
  exact hgoes

/-- A number that is no `i64` is beyond the last one. -/
theorem not_inReach_of_not_isI64 (h : ¬ IsI64 (term first step n)) :
    ¬ InReach step last (term first step n) := fun hreach ↦ h (isI64_of_inReach hreach)

/-- Where the loop stops is where it overruns, if it does. -/
theorem overruns_iff (hstops : Stops first step last n)
    (hgoes : ∀ k < n, InReach step last (term first step k) ∧
      Text.byteLen (linesUpTo first step k) ≤ maxCommandOutputBytes) :
    Overruns first step last ↔ 0 < n ∧ ¬ IsI64 (term first step n) ∧
      Text.byteLen (linesUpTo first step n) ≤ maxCommandOutputBytes := by
  refine ⟨?_, fun ⟨hpos, hfits, hroom⟩ ↦ ⟨n, hpos, fun k hk ↦ (hgoes k hk).1, hfits, hroom⟩⟩
  rintro ⟨m, hpos, hreach, hfits, hroom⟩
  obtain rfl : m = n := by
    refine le_antisymm ?_ ?_
    · by_contra hlt
      rw [not_le] at hlt
      rcases hstops with hbeyond | hlong
      · exact hbeyond (hreach n hlt)
      · exact absurd (byteLen_linesUpTo_mono first step hlt) (by dsimp only; omega)
    · by_contra hlt
      exact not_inReach_of_not_isI64 hfits (hgoes m (not_le.mp hlt)).1
  exact ⟨hpos, hfits, hroom⟩

/-- **The two ways the loop goes**: it prints the sequence, or it overruns and does not. -/
theorem seqLoop_cases (checks : Bool) (first last : Int64) (hstep : step ≠ 0) :
    (¬ Overruns first step last ∧
      ∃ out, seqLoop checks step last first [] = some out ∧ IsSeq first step last out) ∨
    (Overruns first step last ∧
      ∀ out, seqLoop checks step last first [] = some out → ¬ IsSeq first step last out) := by
  obtain ⟨n, hstops, hgoes⟩ := exists_stops first step last
  have hover := overruns_iff hstops hgoes
  rcases n with - | n
  · -- the first number is beyond the last one
    refine Or.inl ⟨fun h ↦ absurd (hover.mp h).1 (lt_irrefl 0), [], ?_, 0, rfl, nofun, hstops⟩
    have hbeyond : ¬ InReach step last first.toInt := by
      have hzero : ¬ InReach step last (term first step 0) :=
        hstops.resolve_right (Nat.not_lt.mpr (Nat.zero_le _))
      rwa [term, Nat.cast_zero, zero_mul, add_zero] at hzero
    rw [seqLoop, if_neg fun h ↦ hbeyond ((inReach_iff hstep).mp h)]
  obtain ⟨hreach, -⟩ := hgoes n (Nat.lt_succ_self n)
  obtain ⟨i, hi, hloop⟩ := seqLoop_rounds hstep
    (fun k hk ↦ (hgoes k (Nat.lt_succ_of_lt hk)).1) (fun k hk ↦ (hgoes k (Nat.lt_succ_of_le hk)).2)
    (isI64_of_inReach hreach)
  rw [hloop]
  by_cases hlong : maxCommandOutputBytes < Text.byteLen (linesUpTo first step (n + 1))
  · -- the output is too long with the last line
    refine Or.inl ⟨fun h ↦ absurd (hover.mp h).2.2 (Nat.not_le.mpr hlong), _, ?_, n + 1, rfl, hgoes,
      hstops⟩
    rw [linesUpTo_succ, ← hi] at hlong ⊢
    rw [← hi] at hreach
    rw [seqLoop, if_pos ((inReach_iff hstep).mpr hreach), if_pos hlong]
  have hroom := Nat.not_lt.mp hlong
  have hbeyond : ¬ InReach step last (term first step (n + 1)) := hstops.resolve_right hlong
  rw [seqLoop_round hstep hi hreach hroom]
  by_cases hfits : IsI64 (term first step (n + 1))
  · -- the next number is beyond the last one
    refine Or.inl ⟨fun h ↦ (hover.mp h).2.1 hfits, _, ?_, n + 1, rfl, hgoes, hstops⟩
    rw [term_succ, ← hi] at hfits hbeyond
    obtain ⟨hadvance, hsum⟩ := advance_of_isI64 checks hfits
    rw [hadvance, Option.bind_some, seqLoop,
      if_neg fun h ↦ hbeyond (hsum ▸ (inReach_iff hstep).mp h)]
  · -- there is no next number
    refine Or.inr ⟨hover.mpr ⟨Nat.succ_pos n, hfits, hroom⟩, fun out hout hseq ↦ ?_⟩
    rw [term_succ, ← hi] at hfits
    rw [← hi] at hreach
    rcases advance_of_not_isI64 checks hstep hreach hfits with
      hadvance | ⟨hadvance, hwrapped⟩
    · rw [hadvance] at hout
      cases hout
    · rw [hadvance, Option.bind_some] at hout
      have hlonger := lt_of_seqLoop hstep hwrapped hout
      obtain ⟨m, rfl, hm, -⟩ := hseq
      have hlt := (byteLen_linesUpTo_mono first step).lt_iff_lt.mp hlonger
      exact hbeyond (hm (n + 1) hlt).1

/-- **When `seq` prints its sequence**: it does not overrun. With overflow checks and without. -/
theorem seqLoop_exact_iff (checks : Bool) (first step last : Int64) (hstep : step ≠ 0) :
    (∃ out, seqLoop checks step last first [] = some out ∧ IsSeq first step last out) ↔
      ¬ Overruns first step last := by
  rcases seqLoop_cases checks first last hstep with ⟨hroom, hexact⟩ | ⟨hover, hwrong⟩
  · exact iff_of_true hexact hroom
  · exact iff_of_false (fun ⟨out, hout, hseq⟩ ↦ hwrong out hout hseq) (not_not_intro hover)

theorem seqLoop_exact_one_three :
    ∃ out, seqLoop true 1 3 1 [] = some out ∧ IsSeq 1 1 3 out := by
  refine (seqLoop_exact_iff true 1 1 3 (by decide)).mpr ?_
  rintro ⟨n, -, hreach, hfits, -⟩
  have hle : n ≤ 3 := by
    by_contra hlt
    have h := hreach 3 (not_le.mp hlt)
    revert h
    decide
  refine hfits ⟨?_, ?_⟩ <;> simp [term] <;> omega

theorem overruns_maxValue : Overruns Int64.maxValue 1 Int64.maxValue := by
  refine ⟨1, Nat.one_pos, fun k hk ↦ ?_, ?_, ?_⟩
  · obtain rfl := Nat.lt_one_iff.mp hk
    decide
  · rintro ⟨-, hlt⟩
    revert hlt
    decide
  · decide +kernel

/-- `seq 9223372036854775807 9223372036854775807`, where the last number is the greatest there is:
the loop goes on behind it, with overflow checks and without. -/
theorem seqLoop_overruns :
    (¬ ∃ out, seqLoop true 1 Int64.maxValue Int64.maxValue [] = some out ∧
      IsSeq Int64.maxValue 1 Int64.maxValue out) ∧
    ¬ ∃ out, seqLoop false 1 Int64.maxValue Int64.maxValue [] = some out ∧
      IsSeq Int64.maxValue 1 Int64.maxValue out := by
  have hwrong (checks : Bool) : ¬ ∃ out,
      seqLoop checks 1 Int64.maxValue Int64.maxValue [] = some out ∧
        IsSeq Int64.maxValue 1 Int64.maxValue out := by
    rintro ⟨out, hout, hseq⟩
    rcases seqLoop_cases checks Int64.maxValue Int64.maxValue
      (show (1 : Int64) ≠ 0 by decide) with ⟨hroom, -⟩ | ⟨-, hwrong⟩
    · exact hroom overruns_maxValue
    · exact hwrong out hout hseq
  exact ⟨hwrong true, hwrong false⟩

end Seq

end Mimic
