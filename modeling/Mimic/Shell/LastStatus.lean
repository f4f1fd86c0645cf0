import Mimic.Shell.SyntaxErrors

/-!
# The status of a line

`execute` returns the status of the last pipeline that came to a result, and the next line reads
`last_status`. A pipeline that came to a result sets both. Two things do not: a missing operand, of
which only the output has the status, and a pipeline without a command, whose substitutions set
only `last_status`.
-/

namespace Mimic

namespace Interp

open Mimic.Parser Outcomes

/-! ### Walks without a result -/

/-- The loop over some segments, none of which comes to a result. -/
inductive Silent (host : Host) (below : Level) : Progress → List Segment → Progress → Prop
  | done {p : Progress} : Silent host below p [] p
  | skipped {p q : Progress} {segment : Segment} {segments : List Segment}
    (hskip : ¬ p.Starts segment) (hmissing : ¬ MissingCommand segment)
    (h : Silent host below p segments q) : Silent host below p (segment :: segments) q
  | silent {p q : Progress} {segment : Segment} {segments : List Segment} {t : Shell}
    (hstarts : p.Starts segment)
    (hrun : runPipeline host below segment.text p.shell = (.ok none, t))
    (h : Silent host below (p.passed t) segments q) : Silent host below p (segment :: segments) q

/-- The loop over some segments, and the last result it comes to. -/
inductive Resulted (host : Host) (below : Level) :
    Progress → List Segment → CommandResult → Progress → Prop
  | mk {p m q : Progress} {before rest : List Segment} {segment : Segment} {result : CommandResult}
    {t : Shell} (h : Walk host below p before m) (hstarts : m.Starts segment)
    (hrun : runPipeline host below segment.text m.shell = (.ok (some result), t))
    (hexit : result.exit = false) (hopen : (m.ranOne result t).open?)
    (hsilent : Silent host below (m.ranOne result t) rest q) :
    Resulted host below p (before ++ segment :: rest) result q

section Silent

variable {host : Host} {below : Level} {p q r : Progress} {before rest segments : List Segment}
  {segment : Segment} {result : CommandResult}

theorem Progress.finish_of_ran (h : p.ran = true) :
    p.finish = { p.out with status := p.status } := if_pos h

theorem Progress.finish_of_not_ran (h : p.ran = false) : p.finish = p.out :=
  if_neg (by rw [h]; exact Bool.false_ne_true)

theorem Walk.append (h : Walk host below p before q) (h' : Walk host below q rest r) :
    Walk host below p (before ++ rest) r := by
  induction h with
  | done => exact h'
  | blank hblank hrun _ ih => exact .blank hblank hrun (ih h')
  | gated hblank hgate _ ih => exact .gated hblank hgate (ih h')
  | silent hstarts hrun _ ih => exact .silent hstarts hrun (ih h')
  | ran hstarts hrun hexit hopen _ ih => exact .ran hstarts hrun hexit hopen (ih h')

theorem Silent.walk (h : Silent host below p segments q) : Walk host below p segments q := by
  induction h with
  | done => exact .done
  | @skipped p q segment segments hskip hmissing _ ih =>
    by_cases hblank : Text.trim segment.text = []
    · exact .blank hblank (not_not.mp fun hrun ↦ hmissing ⟨hblank, hrun⟩) ih
    · exact .gated hblank (fun hgate ↦ hskip ⟨hblank, hgate⟩) ih
  | silent hstarts hrun _ ih => exact .silent hstarts hrun ih

/-- What was collected before stays. -/
theorem Silent.collected (h : Silent host below p segments q) :
    q.out = p.out ∧ q.status = p.status ∧ q.ran = p.ran := by
  induction h with
  | done => exact ⟨rfl, rfl, rfl⟩
  | skipped _ _ _ ih => exact ih
  | silent _ _ _ ih => exact ih

theorem Resulted.walk (h : Resulted host below p segments result q) :
    Walk host below p segments q := by
  obtain ⟨hwalk, hstarts, hrun, hexit, hopen, hsilent⟩ := h
  exact hwalk.append (.ran hstarts hrun hexit hopen hsilent.walk)

theorem Resulted.collected (h : Resulted host below p segments result q) :
    q.ran = true ∧ q.status = result.status := by
  obtain ⟨-, -, -, -, -, hsilent⟩ := h
  obtain ⟨-, hstatus, hran⟩ := hsilent.collected
  exact ⟨hran, hstatus⟩

/-- What one segment does, in front of the last result. -/
theorem Resulted.cons (hwalk : ∀ {before m}, Walk host below r before m →
    Walk host below p (segment :: before) m) (h : Resulted host below r segments result q) :
    Resulted host below p (segment :: segments) result q := by
  obtain ⟨hbefore, hstarts, hrun, hexit, hopen, hsilent⟩ := h
  exact .mk (hwalk hbefore) hstarts hrun hexit hopen hsilent

/-- A walk comes to a last result or to none. -/
theorem Walk.last_result (h : Walk host below p segments q) :
    Silent host below p segments q ∨ ∃ result, Resulted host below p segments result q := by
  induction h with
  | done => exact .inl .done
  | blank hblank hrun _ ih =>
    exact ih.imp (.skipped (fun h ↦ h.1 hblank) fun h ↦ h.2 hrun)
      fun ⟨result, h⟩ ↦ ⟨result, h.cons (.blank hblank hrun)⟩
  | gated hblank hgate _ ih =>
    exact ih.imp (.skipped (fun h ↦ hgate h.2) fun h ↦ hblank h.1)
      fun ⟨result, h⟩ ↦ ⟨result, h.cons (.gated hblank hgate)⟩
  | silent hstarts hrun _ ih =>
    exact ih.imp (.silent hstarts hrun)
      fun ⟨result, h⟩ ↦ ⟨result, h.cons (.silent hstarts hrun)⟩
  | ran hstarts hrun hexit hopen _ ih =>
    rcases ih with h | ⟨result, h⟩
    · exact .inr ⟨_, .mk .done hstarts hrun hexit hopen h⟩
    · exact .inr ⟨result, h.cons (.ran hstarts hrun hexit hopen)⟩

end Silent

/-! ### Blank lines -/

/-- The characters with a meaning for the split. -/
def splitChars : Str := ['$', '`', '\\', '\'', '"', ';', '&', '|']

/-- A blank character is no operator, no quote and no substitution. -/
theorem ne_of_isWhitespace {c d : Char} (hc : Text.isWhitespace c) (hd : d ∈ splitChars) :
    c ≠ d := by
  have hchars : splitChars.all (fun d ↦ !Text.isWhitespace d) = true := by decide
  rintro rfl
  have hplain := List.all_eq_true.mp hchars c hd
  rw [hc] at hplain
  cases hplain

theorem splitSegments_blank {text : Str} (h : Text.trim text = []) :
    splitSegments text = [⟨.always, text⟩] := by
  rw [Text.trim_eq_nil_iff] at h
  rw [splitSegments]
  induction text with
  | nil => rfl
  | cons c text ih =>
    have hne : ∀ d ∈ splitChars, c ≠ d := fun d ↦ ne_of_isWhitespace (h c List.mem_cons_self)
    simp only [splitChars, List.forall_mem_cons, List.not_mem_nil, false_implies, implies_true,
      and_true] at hne
    obtain ⟨hdollar, htick, hesc, hsingle, hdouble, hsemi, hand, hor⟩ := hne
    have hplain : isPlain c := by
      simp [isPlain, hdollar, htick, hesc, hsingle, hdouble]
    have hskip : skipAt Quotes.start (c :: text) = none := by
      rw [skipAt, substitutionAt_plain hplain]
      rfl
    have hquote : Quotes.start.quote? c = none := by
      simp only [Quotes.quote?, hesc, hsingle, hdouble, false_and, if_false]
    rw [splitSegmentsLoop.eq_def]
    simp only [hskip, hquote, hsemi, hand, hor, false_and, if_false]
    have hpush := ih fun c hc ↦ h c (List.mem_cons_of_mem _ hc)
    cases text with
    | nil => rfl
    | cons c' text =>
      dsimp only
      rw [hpush]
      rfl

/-! ### The status of the line -/

/-- From `s` to `t` a command has been started. -/
def StartedSince (s t : Shell) : Prop := ∃ tr, t.trace = s.trace ++ tr ∧ started tr

/-- If a line has started a command or comes to anything, such as a syntax error, then the session
has its status, and a blank line leaves the one it had. -/
def ShowsStatus (line : Str) (s : Shell) (out : Output) (t : Shell) : Prop :=
  (StartedSince s t ∨ out ≠ .empty → t.lastStatus = out.status) ∧
    (Text.trim (stripComment line) = [] → t.lastStatus = s.lastStatus)

/-- What sets `last_status` and the status of the line apart leaves them equal. -/
structure StatusHeld (host : Host) (line : Str) (s : Shell) : Prop where
  /-- Where the loop comes to a missing operand, the session has that status already. -/
  missing : ∀ before segment rest q, lineSegments line = before ++ segment :: rest →
    MissingCommand segment → Walk host (levels host) (.start s.entered) before q →
    q.shell.lastStatus = 2
  /-- The pipelines without a command behind the last result leave its status. -/
  result : ∀ result q,
    Resulted host (levels host) (.start s.entered) (lineSegments line) result q →
    q.shell.lastStatus = result.status
  /-- Where no pipeline comes to a result, and their substitutions have run a command, the status
  they leave is zero. -/
  silent : ∀ q, Silent host (levels host) (.start s.entered) (lineSegments line) q →
    StartedSince s q.shell → q.shell.lastStatus = 0

section Status

variable {host : Host} {line : Str} {s t : Shell} {out : Output}

/-- A walk that has come to a result shows it. -/
theorem Resulted.shows {q : Progress} {segments : List Segment} {result : CommandResult}
    (h : Resulted host (levels host) (.start s.entered) segments result q) :
    StartedSince s q.shell ∨ q.finish ≠ .empty := by
  obtain ⟨hwalk, -, hrun, -, -, hsilent⟩ := h
  rename_i m before rest segment t
  obtain ⟨tr, htr, -⟩ := hwalk.unlike
  obtain ⟨tr', htr', hor⟩ := ensures_ok hrun
    (runPipeline_commandless (levels_lawful host _) _ _ rfl)
  obtain ⟨tr'', htr'', -⟩ := hsilent.walk.unlike
  obtain ⟨hout, hstatus, hran⟩ := hsilent.collected
  rcases hor with hstarted | hresult
  · refine .inl ⟨tr ++ (tr' ++ tr''), ?_, by simp [hstarted]⟩
    have hm : m.shell.trace = s.trace ++ tr := htr.trans (congrArg (· ++ tr) (entered_trace s))
    have hq : q.shell.trace = t.trace ++ tr'' := htr''
    rw [hq, htr', hm, List.append_assoc, List.append_assoc]
  · have hcommandless := hresult result rfl
    refine .inr fun hfinish ↦ ?_
    rw [q.finish_of_ran hran] at hfinish
    have hzero : result.status = 0 := hstatus.symm.trans (congrArg Output.status hfinish)
    have htext : m.out.text ++ result.stderr ++ result.output = [] :=
      (congrArg Output.text hout).symm.trans (congrArg Output.text hfinish)
    rw [List.append_eq_nil_iff, List.append_eq_nil_iff] at htext
    exact hcommandless.stderr hzero htext.1.2

theorem entered_lastStatus (s : Shell) : s.entered.lastStatus = s.lastStatus := by
  rw [Shell.entered]
  split <;> rfl

end Status

end Interp

end Mimic
