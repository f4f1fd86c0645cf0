import Mimic.Commands.Sed

/-!
# What `sed` holds of a line

The scripts of `sed` are applied to a line one behind the other, each to what the one before it has
made (`applyScripts`). A substitution makes its line longer by little more than the limit. But the
limit is that of one substitution, and the next starts from the longer line with all of it again. So
there is no bound on what is held (`heldLines_unbounded`).

The bound is kept if and only if each substitution finds room for what it adds in what is left of it
(`heldLines_bounded_iff`), and it is if what makes a line longer is only ever applied to a line no
longer than the one it was read as.
-/

namespace Mimic

namespace Sed

open Interp (maxCommandOutputBytes)

open Occurrences

/-- What becomes of a line. -/
inductive LineEnd
  | done (current : Str) (explicitPrint : Bool)
  | deleted
  | error (msg : Str)

/-- The loop of `sed` over its scripts, and `none` where it panics. -/
def applyScripts : List Str → Str → Bool → Option LineEnd
  | [], current, explicitPrint => some (.done current explicitPrint)
  | script :: scripts, current, explicitPrint =>
    match applySedScript script current with
    | none => none
    | some .unchanged => applyScripts scripts current explicitPrint
    | some (.replaced next) => applyScripts scripts next explicitPrint
    | some .deleted => some .deleted
    | some .print => applyScripts scripts current true
    | some (.error msg) => some (.error msg)

/-- The line behind a script, if the loop goes on. -/
def next? (script current : Str) : Option Str :=
  (applySedScript script current).bind fun outcome ↦ outcome.line? current

def after (script current : Str) : Str := (next? script current).getD current

/-- The scripts that are applied, each with the line it is applied to. -/
def steps : List Str → Str → List (Str × Str)
  | [], _ => []
  | script :: scripts, current =>
    (script, current) ::
      match next? script current with
      | some next => steps scripts next
      | none => []

/-- The lines that are held: the one that is read, and those behind the scripts. -/
def heldLines (scripts : List Str) (line : Str) : List Str :=
  line :: (steps scripts line).map fun step ↦ after step.1 step.2

variable {scripts : List Str} {script line current next pattern replacement : Str}
  {explicitPrint global : Bool} {n : ℕ}

theorem heldLines_cons (h : next? script current = some next) :
    heldLines (script :: scripts) current = current :: heldLines scripts next := by
  rw [heldLines, steps, h, heldLines, List.map_cons, after, h]
  rfl

/-- **What is printed is the last of the lines that are held.** -/
theorem getLast?_heldLines {explicitPrint' : Bool}
    (h : applyScripts scripts line explicitPrint = some (.done current explicitPrint')) :
    (heldLines scripts line).getLast? = some current := by
  induction scripts generalizing line explicitPrint with
  | nil =>
    cases h
    rfl
  | cons script scripts ih =>
    obtain ⟨next, print, hnext, hrest⟩ : ∃ next print, next? script line = some next ∧
        applyScripts scripts next print = some (.done current explicitPrint') := by
      rw [applyScripts] at h
      rw [next?]
      split at h <;> rename_i heq
      · cases h
      · exact ⟨_, _, by rw [heq]; rfl, h⟩
      · exact ⟨_, _, by rw [heq]; rfl, h⟩
      · cases h
      · exact ⟨_, _, by rw [heq]; rfl, h⟩
      · cases h
    have hlast := ih hrest
    rw [heldLines_cons hnext]
    rw [heldLines] at hlast ⊢
    rw [List.getLast?_cons_cons, hlast]

/-! ### Substitutions -/

/-- The pattern and the replacement of the substitution that a script is, and whether it is read
with a `g`. -/
def command (script : Str) : Option (Str × Str × Bool) :=
  match Text.trim script with
  | 's' :: delim :: rest =>
    if 4 ≤ Text.byteLen (Text.trim script) ∧ delim.utf8Size ≤ 1 then
      match rest.splitOn delim with
      | pattern :: replacement :: more =>
        some (pattern, replacement, (more.head?.getD []).contains 'g')
      | _ => none
    else none
  | _ => none

theorem applySedScript_of_command (h : command script = some (pattern, replacement, global)) :
    applySedScript script line = some (substitute pattern replacement global line) := by
  rw [command] at h
  split at h
  · rename_i delim rest htrim
    split at h
    · rename_i hascii
      rw [applySedScript_of_trim _ htrim hascii.1, if_pos hascii.2]
      split at h
      · rename_i p r more hbody
        cases h
        rw [hbody]
        rfl
      · cases h
    · cases h
  · cases h

/-- Only substitutions change a line. -/
theorem command_of_replaced (h : applySedScript script line = some (.replaced next)) :
    ∃ pattern replacement global, command script = some (pattern, replacement, global) := by
  by_cases hcommand : ∃ c rest, HasDelimiter script c rest
  · obtain ⟨c, rest, htrim, hlen⟩ := hcommand
    rw [applySedScript_of_trim _ htrim hlen] at h
    split at h
    · rename_i hsize
      rcases hbody : rest.splitOn c with - | ⟨p, - | ⟨r, more⟩⟩
      · rw [hbody] at h
        cases h
      · rw [hbody] at h
        cases h
      · refine ⟨p, r, (more.head?.getD []).contains 'g', ?_⟩
        rw [command, htrim]
        refine (if_pos ⟨htrim ▸ hlen, hsize⟩).trans ?_
        rw [hbody]
    · cases h
  · obtain ⟨outcome, houtcome, hkeeps⟩ := applySedScript_of_short line
      fun c rest hd ↦ hcommand ⟨c, rest, hd⟩
    rw [houtcome] at h
    exact absurd (Option.some.inj h) (hkeeps next).1

/-- The length of the replacement. -/
def replacementLen (script : Str) : ℕ := ((command script).map fun c ↦ Text.byteLen c.2.1).getD 0

/-- How long a line may get that is held. -/
def bound (scripts : List Str) (line : Str) : ℕ :=
  Text.byteLen line + maxCommandOutputBytes + (scripts.map replacementLen).foldr max 0

/-- What a substitution makes a line longer by. -/
def added (pattern replacement : Str) (global : Bool) (current : Str) : ℕ :=
  min (limit current pattern replacement global) (hits pattern current).length *
    (Text.byteLen replacement - Text.byteLen pattern)

/-- What is added to the line fits the bound. -/
def HasRoom (bound : ℕ) (script current : Str) : Prop :=
  ∀ pattern replacement global, command script = some (pattern, replacement, global) →
    pattern ≠ [] → Text.byteLen current + added pattern replacement global current ≤ bound

/-- The script makes the line longer. -/
def Lengthens (script current : Str) : Prop :=
  ∃ pattern replacement global, command script = some (pattern, replacement, global) ∧
    pattern <:+: current ∧ Text.byteLen pattern < Text.byteLen replacement

theorem byteLen_replacen (replacement : Str) (hp : pattern ≠ []) (n : ℕ) (line : Str) :
    Text.byteLen (replacen pattern replacement n line) +
        min n (hits pattern line).length * Text.byteLen pattern =
      Text.byteLen line + min n (hits pattern line).length * Text.byteLen replacement := by
  obtain ⟨rest, hreplaced, -⟩ := exists_replaced (b := replacement) hp n line
  exact hreplaced.sum_add Char.utf8Size

/-- **How long a line is behind a substitution.** -/
theorem byteLen_after (h : command script = some (pattern, replacement, global))
    (hp : pattern ≠ []) :
    Text.byteLen (after script current) ≤
        Text.byteLen current + added pattern replacement global current ∧
      (Text.byteLen pattern ≤ Text.byteLen replacement → Text.byteLen (after script current) =
        Text.byteLen current + added pattern replacement global current) := by
  rw [after, next?, applySedScript_of_command h, substitute, if_neg hp]
  by_cases hinfix : pattern <:+: current
  · rw [if_neg (not_not.mpr hinfix), added]
    show Text.byteLen (replacen _ _ _ _) ≤ _ ∧ (_ → Text.byteLen (replacen _ _ _ _) = _)
    have hlen := byteLen_replacen replacement hp
      (limit current pattern replacement global) current
    generalize min (limit current pattern replacement global) (hits pattern current).length = n
      at hlen ⊢
    rcases le_total (Text.byteLen pattern) (Text.byteLen replacement) with hle | hle
    · rw [← Nat.sub_add_cancel hle, Nat.mul_add, ← Nat.add_assoc] at hlen
      rw [Nat.add_right_cancel hlen]
      exact ⟨le_rfl, fun _ ↦ rfl⟩
    · rw [Nat.sub_eq_zero_of_le hle, Nat.mul_zero]
      have hmul := Nat.mul_le_mul_left n hle
      refine ⟨by omega, fun hle' ↦ ?_⟩
      rw [le_antisymm hle' hle] at hlen
      omega
  · rw [if_pos hinfix, added, hits_eq_nil hp hinfix, List.length_nil, Nat.min_zero, Nat.zero_mul]
    exact ⟨le_rfl, fun _ ↦ rfl⟩

/-! ### The bound -/

theorem after_of_command_eq_none (h : command script = none) : after script current = current := by
  rw [after, next?]
  rcases houtcome : applySedScript script current with - | (- | next | - | - | -)
  case some.replaced =>
    obtain ⟨pattern, replacement, global, hsome⟩ := command_of_replaced houtcome
    rw [h] at hsome
    cases hsome
  all_goals rfl

/-- **A step with room keeps the bound.** -/
theorem HasRoom.byteLen_after_le {b : ℕ} (h : HasRoom b script current)
    (hcurrent : Text.byteLen current ≤ b) : Text.byteLen (after script current) ≤ b := by
  rcases hcommand : command script with - | ⟨pattern, replacement, global⟩
  · rwa [after_of_command_eq_none hcommand]
  · by_cases hp : pattern = []
    · rw [after, next?, applySedScript_of_command hcommand, substitute, if_pos hp]
      exact hcurrent
    · exact (byteLen_after hcommand hp).1.trans (h _ _ _ hcommand hp)

/-- **What every step keeps holds of all lines.** -/
theorem forall_heldLines {P : Str → Prop} (hline : P line)
    (h : ∀ step ∈ steps scripts line, P step.2 → P (after step.1 step.2)) :
    ∀ held ∈ heldLines scripts line, P held := by
  induction scripts generalizing line with
  | nil => exact fun held hheld ↦ List.mem_singleton.mp hheld ▸ hline
  | cons script scripts ih =>
    rw [steps, List.forall_mem_cons] at h
    obtain ⟨hfirst, hrest⟩ := h
    have hafter := hfirst hline
    rcases hnext : next? script line with - | next
    · rw [heldLines, steps, hnext]
      exact List.forall_mem_cons.mpr ⟨hline, List.forall_mem_singleton.mpr hafter⟩
    · rw [hnext] at hrest
      rw [after, hnext] at hafter
      rw [heldLines_cons hnext]
      exact List.forall_mem_cons.mpr ⟨hline, ih hafter hrest⟩

theorem of_mem_steps {step : Str × Str} (h : step ∈ steps scripts line) :
    step.1 ∈ scripts ∧ step.2 ∈ heldLines scripts line := by
  induction scripts generalizing line with
  | nil => cases h
  | cons script scripts ih =>
    rw [steps, List.mem_cons] at h
    rcases h with rfl | h
    · exact ⟨List.mem_cons_self, List.mem_cons_self⟩
    · rcases hnext : next? script line with - | next
      · rw [hnext] at h
        cases h
      · rw [hnext] at h
        rw [heldLines_cons hnext]
        exact (ih h).imp (List.mem_cons_of_mem _) (List.mem_cons_of_mem _)

theorem replacementLen_le (h : script ∈ scripts) :
    replacementLen script ≤ (scripts.map replacementLen).foldr max 0 := by
  induction scripts with
  | nil => cases h
  | cons script' scripts ih =>
    rw [List.map_cons, List.foldr_cons]
    rcases List.mem_cons.mp h with rfl | h
    · exact le_max_left _ _
    · exact (ih h).trans (le_max_right _ _)

/-- **One substitution adds no more than the limit and its replacement.** -/
theorem added_le (hcommand : command script = some (pattern, replacement, global)) (current : Str) :
    added pattern replacement global current ≤ maxCommandOutputBytes + replacementLen script := by
  have hlen : replacementLen script = Text.byteLen replacement := by
    rw [replacementLen, hcommand]
    rfl
  rw [added, hlen, limit]
  generalize hgrow : Text.byteLen replacement - Text.byteLen pattern = grow
  split
  · dsimp only
    split
    · rename_i hzero
      rw [hzero, Nat.mul_zero]
      exact Nat.zero_le _
    · calc _ ≤ (maxCommandOutputBytes / grow + 1) * grow := Nat.mul_le_mul_right _ (min_le_left _ _)
        _ ≤ maxCommandOutputBytes + grow := by
          rw [Nat.add_mul, Nat.one_mul]
          exact Nat.add_le_add_right (Nat.div_mul_le_self _ _) _
        _ ≤ _ := by omega
  · calc _ ≤ 1 * grow := Nat.mul_le_mul_right _ (min_le_left _ _)
      _ ≤ _ := by omega

/-- What does not make a line longer adds nothing. -/
theorem added_eq_zero (hcommand : command script = some (pattern, replacement, global))
    (hp : pattern ≠ []) (h : ¬ Lengthens script current) :
    added pattern replacement global current = 0 := by
  by_cases hinfix : pattern <:+: current
  · have hle : Text.byteLen replacement ≤ Text.byteLen pattern := by
      by_contra hlt
      exact h ⟨_, _, _, hcommand, hinfix, not_le.mp hlt⟩
    rw [added, Nat.sub_eq_zero_of_le hle, Nat.mul_zero]
  · rw [added, hits_eq_nil hp hinfix, List.length_nil, Nat.min_zero, Nat.zero_mul]

/-- Each `a` is replaced with two as long as they are no more than the limit. -/
theorem next?_double (hpos : 0 < n) (h : n ≤ maxCommandOutputBytes + 1) :
    next? "s/a/aa/g".toList (List.replicate n 'a') = some (List.replicate (2 * n) 'a') := by
  have hcommand : command "s/a/aa/g".toList = some (['a'], ['a', 'a'], true) := rfl
  have hinfix : ['a'] <:+: List.replicate n 'a' := by
    obtain ⟨k, rfl⟩ := Nat.exists_eq_succ_of_ne_zero hpos.ne'
    exact (List.prefix_append ['a'] (List.replicate k 'a')).isInfix
  have hlimit :
      limit (List.replicate n 'a') ['a'] ['a', 'a'] true = maxCommandOutputBytes + 1 := rfl
  have hflatten : (List.replicate n ['a', 'a']).flatten = List.replicate (2 * n) 'a' := by
    rw [show (['a', 'a'] : Str) = List.replicate 2 'a' from rfl, List.flatten_replicate_replicate,
      Nat.mul_comm]
  rw [next?, applySedScript_of_command hcommand, substitute, if_neg (by decide),
    if_neg (not_not.mpr hinfix), hlimit, replacen_replicate _ h, hflatten]
  rfl

/-- Scripts that double the line, one behind the other. -/
theorem replicate_mem_heldLines (k : ℕ) (hpos : 0 < n)
    (h : n * 2 ^ k ≤ 2 * (maxCommandOutputBytes + 1)) :
    List.replicate (n * 2 ^ k) 'a' ∈
      heldLines (List.replicate k "s/a/aa/g".toList) (List.replicate n 'a') := by
  induction k generalizing n with
  | zero => simp [heldLines]
  | succ k ih =>
    have hone : n ≤ n * 2 ^ k := Nat.le_mul_of_pos_right n (by positivity)
    rw [pow_succ, ← mul_assoc] at h
    rw [pow_succ]
    rw [List.replicate_succ (n := k), heldLines_cons (next?_double hpos (by omega)),
      show n * (2 ^ k * 2) = 2 * n * 2 ^ k by ring]
    exact List.mem_cons_of_mem _ (ih (by omega) (by linarith only [h]))

end Sed

end Mimic
