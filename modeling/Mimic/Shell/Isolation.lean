import Mimic.Shell.Balance

/-!
# Substitutions as subshells

`substitute` runs its body in the session itself and puts back a list of fields afterwards. The list
leaves out the standard input, the terminal flag, the history and the waiting here-document. What
happens to those follows from what `Ran` says of the body's run, and so does when nothing happens to
them.
-/

namespace Mimic

namespace Interp

open Outcomes

/-! ### A substitution and its body -/

/-- The session a substitution's body starts in. -/
def Shell.subshell (s : Shell) : Shell :=
  (s.atDepth (s.nesting + 1) (s.substDepth + 1)).withCaptures []

/-- The session behind a substitution whose body ended in `v`. -/
def Shell.rejoin (s v : Shell) (output : Output) : Shell :=
  ((v.restore s).atDepth (v.nesting - 1) (v.substDepth - 1)).splice output.stderr
    (Text.takeBytes v.substBudget (spliceText output))

section Substitute

variable {below : Level} {body : Str} {s v : Shell}

theorem substitute_deep (h : maxNestedCommands ≤ s.nesting) :
    substitute below body s = (.ok [], s) := by
  show (if s.nesting ≥ maxNestedCommands then pure [] else _ : Run Str) s = _
  rw [if_pos h]
  rfl

/-- What happens around the body. -/
theorem substitute_shallow (hs : s.nesting < maxNestedCommands) : substitute below body s =
    match below.execute body s.subshell with
    | (.ok output, v) =>
      (.ok (Text.takeBytes v.substBudget (spliceText output)), s.rejoin v output)
    | (.error e, v) => (.error e, v) := by
  show (if s.nesting ≥ maxNestedCommands then pure [] else _ : Run Str) s = _
  rw [if_neg (Nat.not_le_of_lt hs)]
  rw [bind_apply]
  show ((modify fun s ↦ s.withCaptures []) >>= _ : Run Str)
    (s.atDepth (s.nesting + 1) (s.substDepth + 1)) = _
  rw [bind_apply]
  show (below.execute body >>= _ : Run Str) s.subshell = _
  rw [bind_apply]
  rcases below.execute body s.subshell with ⟨e | output, v⟩ <;> rfl

end Substitute

/-! ### Isolation -/

/-- The same session, apart from the filesystem, the captures, what is held of substitutions, their
budget and the last status. -/
def SameSession (s t : Shell) : Prop :=
  t = { s with
    vfs := t.vfs, captures := t.captures, substStderr := t.substStderr
    substBudget := t.substBudget, lastStatus := t.lastStatus, trace := t.trace }

/-- A substitution returns to the same session, and only appends to the captures. -/
def Isolated (host : Host) (body : Str) (s : Shell) : Prop :=
  ∃ value t, substitute (levels host) body s = (.ok value, t) ∧ SameSession s t ∧
    s.captures <+: t.captures

/-- Whether a pipeline was started. -/
def pipelined (tr : List Event) : Bool :=
  tr.any fun e ↦
    match e with
    | .pipeline .. => true
    | _ => false

/-- The fields a substitution does not put back have the values that what its body started leaves
them with. -/
def Untouched (s : Shell) (tr : List Event) : Prop :=
  (started tr → s.stdin = none ∧ s.stdoutIsTty = true) ∧ (forgot tr → s.history = []) ∧
    (pipelined tr → s.heredocStdin = none)

/-- The body runs to its end as a command line, and starts nothing that shows in the session. -/
def Harmless (host : Host) (body : Str) (s : Shell) : Prop :=
  ∃ output v tr, (levels host).execute body s.subshell = (.ok output, v) ∧
    v.trace = s.subshell.trace ++ tr ∧ Untouched s tr

theorem Feed.waiting_thru (f : Feed) (tr : List Event) :
    (f.thru tr).waiting = if pipelined tr then none else f.waiting := by
  induction tr generalizing f with
  | nil => rfl
  | cons e tr ih =>
    rw [Feed.thru_cons, ih]
    cases e <;> simp [pipelined, Feed.after]

/-- Where the body ended in the log. -/
theorem body_ran {host : Host} {body : Str} {s v : Shell} {output : Output}
    (hs : s.nesting < maxNestedCommands)
    (h : (levels host).execute body s.subshell = (.ok output, v)) :
    ∃ tr, Ran (s.nesting + 1) s.subshell v tr := by
  have hrun := (levels_lawful host s.nesting hs).execute body s.subshell rfl
  rw [Shell.begun_of_pos (Nat.succ_ne_zero s.nesting)] at hrun
  exact ensures_ok h hrun

theorem sameSession_rejoin_iff {lvl : ℕ} {s v : Shell} {output : Output} {tr : List Event}
    (h : Ran lvl s.subshell v tr) : SameSession s (s.rejoin v output) ↔ Untouched s tr := by
  have hn : v.nesting - 1 = s.nesting := by rw [h.nesting]; rfl
  have hd : v.substDepth - 1 = s.substDepth := by rw [h.substDepth]; rfl
  have hw : v.heredocStdin = if pipelined tr then none else s.heredocStdin := by
    rw [← h.waiting fun _ ↦ none]
    exact Feed.waiting_thru _ tr
  have hstdin : v.stdin = if started tr then none else s.stdin := h.stdin
  have htty : v.stdoutIsTty = (started tr || s.stdoutIsTty) := h.stdoutIsTty
  have hhistory : v.history = if forgot tr then [] else s.history := h.history
  have hhost : v.hostname = s.hostname := h.hostname
  have hpid : v.pid = s.pid := h.pid
  have hinter : v.interactive = s.interactive := h.interactive
  have hlog : v.heredocLog = s.heredocLog := h.heredocLog
  simp only [SameSession, Shell.rejoin, Shell.splice, Shell.restore, Shell.atDepth, Shell.log,
    Shell.mk.injEq, hn, hd, hw, hstdin, htty, hhistory, hhost, hpid, hinter, hlog, true_and,
    and_true]
  -- a field keeps its value if nothing reset it, or it was as reset before
  simp only [Untouched]
  cases started tr <;> cases forgot tr <;> cases pipelined tr <;>
    simp [eq_comm (a := none), eq_comm (a := []), eq_comm (a := true), and_assoc]

theorem isolated_iff (host : Host) (body : Str) (s : Shell) :
    Isolated host body s ↔ maxNestedCommands ≤ s.nesting ∨ Harmless host body s := by
  rcases Nat.lt_or_ge s.nesting maxNestedCommands with hs | hs
  · rw [or_iff_right (Nat.not_le_of_lt hs), Isolated, substitute_shallow hs, Harmless]
    rcases hx : (levels host).execute body s.subshell with ⟨e | output, v⟩
    · refine iff_of_false ?_ ?_
      · rintro ⟨value, t, ht, -⟩
        cases ht
      · rintro ⟨output, v', tr, hv, -⟩
        cases hv
    · obtain ⟨tr, hran⟩ := body_ran hs hx
      have happend : s.captures <+: (s.rejoin v output).captures := List.prefix_append _ _
      constructor
      · rintro ⟨value, t, ht, hsame, -⟩
        obtain rfl := (Prod.mk.inj ht).2
        exact ⟨output, v, tr, rfl, hran.trace, (sameSession_rejoin_iff hran).mp hsame⟩
      · rintro ⟨output', v', tr', hv, htr, huntouched⟩
        obtain ⟨hout, rfl⟩ := Prod.mk.inj hv
        obtain rfl := Except.ok.inj hout
        obtain rfl : tr = tr' := List.append_cancel_left (hran.trace.symm.trans htr)
        exact ⟨_, _, rfl, (sameSession_rejoin_iff hran).mpr huntouched, happend⟩
  · exact iff_of_true ⟨[], s, substitute_deep hs, rfl, List.prefix_refl _⟩ (Or.inl hs)

/-- Of a line's budget, what was not spliced in is left, however the line ends. -/
theorem execute_budget (host : Host) (line : Str) (s : Shell) :
    ∃ tr, (execute host (levels host) line s).2.trace = s.trace ++ tr ∧
      (execute host (levels host) line s).2.substBudget + spliced tr =
        if s.nesting = 0 then maxCommandOutputBytes else s.substBudget := by
  have hrun : Runs s.nesting s.begun (execute host (levels host) line) s :=
    execute_runs (levels_lawful host s.nesting) line s rfl
  rcases hx : execute host (levels host) line s with ⟨e | output, t⟩
  · obtain ⟨-, tr, htr, -, hbudget, -⟩ := ensures_error hx hrun
    exact ⟨tr, htr, hbudget⟩
  · obtain ⟨tr, ht⟩ := ensures_ok hx hrun
    exact ⟨tr, ht.trace, ht.budget⟩

/-- **Isolation of substitutions.** A substitution is isolated if it is refused as too deep, or if
its body runs to its end and starts nothing that shows: no command while there is a standard input
or the output is no terminal, no clearing of a history that has entries, no pipeline while a
here-document waits. In other cases it is not. Its share of the line's budget always comes out
right. -/
theorem substitute_isolated_iff (host : Host) (s : Shell) (body line : Str) :
    (Isolated host body s ↔ maxNestedCommands ≤ s.nesting ∨ Harmless host body s) ∧
    ∃ tr, (execute host (levels host) line s).2.trace = s.trace ++ tr ∧
      (execute host (levels host) line s).2.substBudget + spliced tr =
        if s.nesting = 0 then maxCommandOutputBytes else s.substBudget :=
  ⟨isolated_iff host body s, execute_budget host line s⟩

/-- A subshell that clears its history clears the one of the session. -/
theorem history_cleared_by_subshell :
    ¬ Isolated bareHost "history -c".toList { Shell.bare with history := ["id".toList] } := by
  rintro ⟨value, t, ht, hsame, -⟩
  have hcleared : (substitute (levels bareHost) "history -c".toList
      { Shell.bare with history := ["id".toList] }).2.history = [] := by decide +kernel
  rw [ht] at hcleared
  rw [hsame] at hcleared
  exact List.cons_ne_nil _ _ hcleared

end Interp

end Mimic
