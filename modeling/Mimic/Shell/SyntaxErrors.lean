import Mimic.Shell.Segments

/-!
# Missing operands

The loop of `execute` reports a segment without a command behind `&&` or `||` when it comes to it,
and it looks only at the operator in front of the segment. What is in front of the segment has been
run by then, and a segment without a command in front of an operator is passed over.
-/

namespace Mimic

namespace Interp

open Mimic.Parser Outcomes

/-- An operand of `&&` or `||` is blank. -/
def HasBlankOperand (segments : List Segment) : Prop :=
  ∃ before left right rest, segments = before ++ left :: right :: rest ∧ right.runIf ≠ .always ∧
    (Text.trim left.text = [] ∨ Text.trim right.text = [])

/-- From `s` to `t` no command is started, and the filesystem, the environment and the captures of
the line are as in the beginning. -/
def NothingRun (s t : Shell) : Prop :=
  (∃ tr, t.trace = s.trace ++ tr ∧ started tr = false) ∧ t.vfs = s.vfs ∧ t.env = s.env ∧
    t.captures = []

/-- The line comes to a syntax error and to nothing else. -/
def Atomic (host : Host) (line : Str) (s : Shell) : Prop :=
  ∃ t, execute host (levels host) line s = (.ok syntaxError, t) ∧ NothingRun s t

/-- The loop comes to a segment without a command behind `&&` or `||`, and has run nothing before.
-/
def MissesFirst (host : Host) (line : Str) (s : Shell) : Prop :=
  ¬ Parked s line ∧ ∃ before segment rest q, lineSegments line = before ++ segment :: rest ∧
    MissingCommand segment ∧ Walk host (levels host) (.start s.entered) before q ∧
    NothingRun s q.shell

/-! ### Pipelines without a command -/

/-- The end of the message about a malformed redirection. -/
def RedirectMessage (message : Str) : Prop :=
  "newline'\n".toList <:+ message ∨ "descriptor\n".toList <:+ message

theorem redirectTarget_message {text message : Str} (h : redirectTarget text = .error message) :
    RedirectMessage message := by
  have hfd : "descriptor\n".toList <:+ ": Bad file descriptor\n".toList := by decide +kernel
  have hnewline : "newline'\n".toList <:+
    "-bash: syntax error near unexpected token `newline'\n".toList := by decide +kernel
  simp only [redirectTarget] at h
  split_ifs at h <;> cases h
  · exact .inr (hfd.trans (List.suffix_append _ _))
  · exact .inl hnewline
  · exact .inr (hfd.trans (List.suffix_append _ _))
  · exact .inl hnewline

theorem splitRedirects_message {stage message : Str} (h : splitRedirects stage = .error message) :
    RedirectMessage message := by
  have hloop : ∀ text command word skip copy q,
      splitRedirectsLoop command word skip copy q text = .error message →
      RedirectMessage message := by
    intro text command word skip copy q h
    fun_induction splitRedirectsLoop command word skip copy q text
    case case1 => cases h
    case case6 htarget =>
      cases h
      exact redirectTarget_message htarget
    case case7 ih =>
      rw [Except.map.eq_def] at h
      split at h
      · rename_i herror
        cases h
        exact ih herror
      · cases h
    -- the other cases go on behind a character or a region
    all_goals
      rename_i ih
      exact ih h
  exact hloop _ _ _ _ _ _ h

/-- What a pipeline can come to that has started no command. -/
structure Commandless (result : CommandResult) : Prop where
  exit : result.exit = false
  output : result.output = []
  message : result.status = 2 → RedirectMessage result.stderr
  stderr : result.status = 0 → result.stderr ≠ []

section Pipelines

variable {host : Host} {below : Level} {k : ℕ}
  (hb : k < maxNestedCommands → LawfulAt below (k + 1))

include hb

theorem runStage_starts (argv : List Str) (sinks : Sinks) (piped : Option Str) (isLast : Bool)
    (s : Shell) (hs : s.nesting = k) :
    ensures (fun _ _ ↦ True) (runStage host below argv sinks piped isLast)
      (fun _ t ↦ s.trace ++ [.ran k argv piped] <+: t.trace ∧ t.nesting = k) s := by
  subst hs
  rw [runStage]
  simp only [ensures_bind, ensures_modify, ensures_get, ensures_set, ensures_pure]
  have hgrows : ∀ u, u.nesting = s.nesting →
      ensures (fun _ _ ↦ True) (dispatch host below argv)
        (fun _ t ↦ u.trace <+: t.trace ∧ t.nesting = u.nesting) u := fun u hu ↦
    ensures_mono (fun _ _ _ ↦ trivial) (fun _ _ h ↦ h)
      ((dispatch_runs hb argv u hu).grows (List.prefix_refl _))
  refine ensures_mono (fun _ _ h ↦ h) ?_ (hgrows _ rfl)
  rintro result t ⟨ht, hn⟩
  exact ⟨ht.trans (List.prefix_append _ _), hn⟩

/-- A pipeline starts a command, or comes to a result that can be told from the others. -/
theorem stagesLoop_commandless (piped : Option Str) (stderr : Str) (stages : List Str) (s : Shell)
    (hs : s.nesting = k) :
    ensures (fun _ _ ↦ True) (stagesLoop host below piped stderr none stages)
      (fun r t ↦ ∃ tr, t.trace = s.trace ++ tr ∧
        (started tr ∨ ∀ result, r = some result → Commandless result)) s := by
  induction stages generalizing stderr s with
  | nil =>
    rw [stagesLoop]
    split
    · refine ⟨[], (List.append_nil _).symm, Or.inr ?_⟩
      rintro _ ⟨⟩
    · rename_i hstderr
      refine ⟨[], (List.append_nil _).symm, Or.inr ?_⟩
      rintro _ ⟨⟩
      exact ⟨rfl, rfl, by rintro ⟨⟩, fun _ ↦ hstderr⟩
  | cons stage stages ih =>
    rw [stagesLoop]
    split
    · rename_i message hsplit
      refine ⟨[], (List.append_nil _).symm, Or.inr ?_⟩
      rintro _ ⟨⟩
      exact ⟨rfl, rfl, fun _ ↦ splitRedirects_message hsplit, by rintro ⟨⟩⟩
    rename_i text redirects hsplit
    rw [ensures_bind]
    refine ensures_mono (fun _ _ _ ↦ trivial) ?_ (parseLine_runs hb text s hs)
    rintro argv t ⟨tr, ht⟩
    have hs₁ := ht.nesting.trans hs
    rw [ensures_bind]
    refine ensures_mono (fun _ _ _ ↦ trivial) ?_ (openRedirects_runs hb .empty redirects t hs₁)
    rintro opened u ⟨tr', hu⟩
    have hs₂ := hu.nesting.trans hs₁
    have htrace : u.trace = s.trace ++ (tr ++ tr') := by
      rw [hu.trace, ht.trace, List.append_assoc]
    split
    · refine ⟨tr ++ tr', htrace, Or.inr ?_⟩
      rintro _ ⟨⟩
      exact ⟨rfl, rfl, by rintro ⟨⟩, by rintro ⟨⟩⟩
    simp only [takeSubstStderr, bind_assoc, pure_bind, ensures_bind, ensures_get, ensures_set]
    split
    · refine ensures_mono (fun _ _ h ↦ h) ?_ (ih _ _ hs₂)
      rintro r v ⟨tr'', hv, hor⟩
      refine ⟨tr ++ tr' ++ tr'', by rw [hv, ← List.append_assoc, ← htrace], ?_⟩
      rw [started_append, Bool.or_eq_true]
      exact hor.imp Or.inr id
    · rw [ensures_bind]
      refine ensures_mono (fun _ _ h ↦ h) ?_ (runStage_starts hb argv _ piped stages.isEmpty _ hs₂)
      rintro result v ⟨hv, hs₃⟩
      refine ensures_mono (fun _ _ _ ↦ trivial) ?_ (stagesLoop_grows hb _ _ _ stages v hs₃ hv)
      -- the log says that the command was started
      rintro r w ⟨⟨rest, hrest⟩, -⟩
      refine ⟨tr ++ tr' ++ [.ran k argv piped] ++ rest, ?_, Or.inl (by simp)⟩
      rw [← hrest]
      show u.trace ++ _ ++ rest = _
      rw [htrace]
      simp only [List.append_assoc]

theorem runPipeline_commandless (segment : Str) (s : Shell) (hs : s.nesting = k) :
    ensures (fun _ _ ↦ True) (runPipeline host below segment)
      (fun r t ↦ ∃ tr, t.trace = s.trace ++ tr ∧
        (started tr ∨ ∀ result, r = some result → Commandless result)) s := by
  rw [runPipeline]
  simp only [ensures_bind, ensures_get, ensures_set]
  refine ensures_mono (fun _ _ h ↦ h) ?_
    (stagesLoop_commandless hb s.heredocStdin [] (splitPipeline segment) _ hs)
  rintro r t ⟨tr, ht, hor⟩
  refine ⟨.pipeline s.nesting s.heredocStdin :: tr, ?_, hor⟩
  rw [ht]
  exact List.append_assoc ..

end Pipelines

/-! ### Walks without a command -/

/-- Nothing that was collected looks like a missing operand. -/
structure Progress.Unlike (p : Progress) : Prop where
  empty : p.ran = false → p.out = .empty
  message : p.status = 2 → ∃ message, RedirectMessage message ∧ message <:+ p.out.text

section Walks

variable {host : Host} {p q : Progress} {segments : List Segment} {result : CommandResult}
  {t : Shell}

theorem Progress.unlike_start (s : Shell) : (Progress.start s).Unlike := ⟨fun _ ↦ rfl, nofun⟩

theorem Commandless.unlike (h : Commandless result) (p : Progress) (t : Shell) :
    (p.ranOne result t).Unlike := by
  refine ⟨nofun, fun hstatus ↦ ⟨result.stderr, h.message hstatus, ?_⟩⟩
  show result.stderr <:+ p.out.text ++ result.stderr ++ result.output
  rw [h.output, List.append_nil]
  exact List.suffix_append _ _

/-- The log of a walk, and what it has collected if it has started no command. -/
theorem Walk.unlike (h : Walk host (levels host) p segments q) :
    ∃ tr, q.shell.trace = p.shell.trace ++ tr ∧ (started tr = false → p.Unlike → q.Unlike) := by
  induction h with
  | done => exact ⟨[], (List.append_nil _).symm, fun _ ↦ id⟩
  | blank _ _ _ ih => exact ih
  | gated _ _ _ ih => exact ih
  | silent _ hrun _ ih =>
    obtain ⟨tr', htr', h'⟩ := ih
    obtain ⟨tr, htr, -⟩ := ensures_ok hrun
      (runPipeline_commandless (levels_lawful host _) _ _ rfl)
    refine ⟨tr ++ tr', ?_, fun hstarted hp ↦ ?_⟩
    · rw [htr', ← List.append_assoc, ← htr]
      rfl
    · rw [started_append, Bool.or_eq_false_iff] at hstarted
      exact h' hstarted.2 ⟨hp.empty, hp.message⟩
  | ran _ hrun _ _ _ ih =>
    obtain ⟨tr', htr', h'⟩ := ih
    obtain ⟨tr, htr, hor⟩ := ensures_ok hrun
      (runPipeline_commandless (levels_lawful host _) _ _ rfl)
    refine ⟨tr ++ tr', ?_, fun hstarted hp ↦ ?_⟩
    · rw [htr', ← List.append_assoc, ← htr]
      rfl
    · rw [started_append, Bool.or_eq_false_iff] at hstarted
      have hcommandless := hor.resolve_left (by simp [hstarted.1]) _ rfl
      exact h' hstarted.2 (hcommandless.unlike _ _)

theorem entered_trace (s : Shell) : s.entered.trace = s.trace := by
  rw [Shell.entered]
  split <;> rfl

theorem not_redirectMessage {message : Str} (h : message <:+ syntaxError.text) :
    ¬ RedirectMessage message := by
  rintro (hm | hm)
  · exact absurd (hm.trans h) (by decide +kernel)
  · exact absurd (hm.trans h) (by decide +kernel)

/-- What is unlike a missing operand does not come to one. -/
theorem Progress.Unlike.finish (h : p.Unlike) : p.finish ≠ syntaxError := by
  intro hfinish
  rw [Progress.finish] at hfinish
  split at hfinish
  · obtain ⟨message, hmessage, hsuffix⟩ := h.message (congrArg Output.status hfinish)
    exact not_redirectMessage (congrArg Output.text hfinish ▸ hsuffix) hmessage
  · rename_i hran
    rw [h.empty (Bool.not_eq_true _ ▸ hran)] at hfinish
    exact absurd hfinish (by decide)

/-- A line that is cut off is longer than the message. -/
theorem text_cut_ne (h : ¬ p.open?) : p.cut.text ≠ syntaxError.text := by
  intro hcut
  have hlen : Text.byteLen p.cut.text = 47 := by
    rw [hcut]
    decide +kernel
  have hmax : maxCommandOutputBytes = 1048576 := rfl
  rcases Nat.lt_or_eq_of_le (Nat.le_of_not_lt h) with hlt | heq
  · have hle : _ ≤ Text.byteLen p.cut.text + 3 := le_byteLen_truncateStream hlt
    omega
  · have htext : p.cut.text = p.out.text := if_pos heq.ge
    rw [htext] at hlen
    omega

end Walks

end Interp

end Mimic
