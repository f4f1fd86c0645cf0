import Mimic.Shell.Heredoc
import Mimic.Shell.Words

/-!
# The segments of a line

The loop of `execute` passes over segments that are blank or that their operator gates off, and over
pipelines that come to no command; of the others it collects the output and the status (`Walk`). It
ends in one of four ways (`Ended`), and this is all that a line does (`execute_eq_ok_iff`).
-/

namespace Mimic

namespace Interp

open Mimic.Parser Outcomes

/-! ### The loop -/

/-- Where the loop stands. -/
structure Progress where
  out : Output
  status : ℤ
  ran : Bool
  shell : Shell

namespace Progress

/-- In front of the first segment. -/
def start (s : Shell) : Progress := ⟨.empty, 0, false, s⟩

/-- Behind a pipeline that came to no command. -/
def passed (p : Progress) (t : Shell) : Progress := { p with shell := t }

/-- Behind a pipeline with a result. -/
def ranOne (p : Progress) (result : CommandResult) (t : Shell) : Progress where
  out := p.out.push result.output result.stderr
  status := result.status
  ran := true
  shell := { t with lastStatus := result.status }

/-- What the line comes to behind its last segment. -/
def finish (p : Progress) : Output := if p.ran then { p.out with status := p.status } else p.out

/-- What a line comes to that ends the session. -/
def exit (p : Progress) : Output := { p.out with exit := true, status := p.status }

/-- What a line comes to that is cut off. -/
def cut (p : Progress) : Output where
  text := truncateStream p.out.text maxCommandOutputBytes
  stdout := truncateStream p.out.stdout maxCommandOutputBytes
  stderr := truncateStream p.out.stderr maxCommandOutputBytes
  status := p.status
  exit := p.out.exit

/-- Whether the loop goes on. -/
def open? (p : Progress) : Prop := Text.byteLen p.out.text < maxCommandOutputBytes

/-- Whether the loop starts a segment. -/
def Starts (p : Progress) (segment : Segment) : Prop :=
  Text.trim segment.text ≠ [] ∧ shouldRun segment.runIf p.status

end Progress

/-- A segment without a command behind an operator. -/
def MissingCommand (segment : Segment) : Prop :=
  Text.trim segment.text = [] ∧ segment.runIf ≠ .always

/-- What a syntax error comes to. -/
def syntaxError : Output := .written [] "-bash: syntax error near unexpected token `&&'\n".toList 2

section Walk

variable (host : Host) (below : Level)

/-- The loop from where it stands on. -/
def Progress.loop (p : Progress) (segments : List Segment) : Except Stop Output × Shell :=
  segmentsLoop host below p.out p.status p.ran segments p.shell

/-- The loop over some segments, none of which ends it. -/
inductive Walk : Progress → List Segment → Progress → Prop
  | done {p : Progress} : Walk p [] p
  | blank {p q : Progress} {segment : Segment} {segments : List Segment}
    (hblank : Text.trim segment.text = []) (hrun : segment.runIf = .always)
    (h : Walk p segments q) : Walk p (segment :: segments) q
  | gated {p q : Progress} {segment : Segment} {segments : List Segment}
    (hblank : Text.trim segment.text ≠ []) (hgate : ¬ shouldRun segment.runIf p.status)
    (h : Walk p segments q) : Walk p (segment :: segments) q
  | silent {p q : Progress} {segment : Segment} {segments : List Segment} {t : Shell}
    (hstarts : p.Starts segment)
    (hrun : runPipeline host below segment.text p.shell = (.ok none, t))
    (h : Walk (p.passed t) segments q) : Walk p (segment :: segments) q
  | ran {p q : Progress} {segment : Segment} {segments : List Segment} {result : CommandResult}
    {t : Shell} (hstarts : p.Starts segment)
    (hrun : runPipeline host below segment.text p.shell = (.ok (some result), t))
    (hexit : result.exit = false) (hopen : (p.ranOne result t).open?)
    (h : Walk (p.ranOne result t) segments q) : Walk p (segment :: segments) q

/-- How the loop returns. -/
inductive Ended (p : Progress) (segments : List Segment) : Output → Shell → Prop
  | through {q : Progress} (h : Walk host below p segments q) : Ended p segments q.finish q.shell
  | missing {q : Progress} {before rest : List Segment} {segment : Segment}
    (hsegments : segments = before ++ segment :: rest) (h : Walk host below p before q)
    (hmissing : MissingCommand segment) : Ended p segments syntaxError q.shell
  | exit {q : Progress} {before rest : List Segment} {segment : Segment} {result : CommandResult}
    {t : Shell} (hsegments : segments = before ++ segment :: rest)
    (h : Walk host below p before q) (hstarts : q.Starts segment)
    (hrun : runPipeline host below segment.text q.shell = (.ok (some result), t))
    (hexit : result.exit = true) :
    Ended p segments (q.ranOne result t).exit (q.ranOne result t).shell
  | cut {q : Progress} {before rest : List Segment} {segment : Segment} {result : CommandResult}
    {t : Shell} (hsegments : segments = before ++ segment :: rest)
    (h : Walk host below p before q) (hstarts : q.Starts segment)
    (hrun : runPipeline host below segment.text q.shell = (.ok (some result), t))
    (hexit : result.exit = false) (hfull : ¬ (q.ranOne result t).open?) :
    Ended p segments (q.ranOne result t).cut (q.ranOne result t).shell

end Walk

section Loop

variable {host : Host} {below : Level} {p q r : Progress} {segment : Segment}
  {segments before rest : List Segment} {out : Output} {t : Shell} {result : CommandResult}

theorem loop_nil : p.loop host below [] = (.ok p.finish, p.shell) := by
  rw [Progress.loop, segmentsLoop, Progress.finish]
  rfl

theorem loop_blank (hblank : Text.trim segment.text = []) (hrun : segment.runIf = .always) :
    p.loop host below (segment :: segments) = p.loop host below segments := by
  rw [Progress.loop, segmentsLoop, if_pos hblank, if_neg (not_not_intro hrun)]
  rfl

theorem loop_missing (h : MissingCommand segment) :
    p.loop host below (segment :: segments) = (.ok syntaxError, p.shell) := by
  rw [Progress.loop, segmentsLoop, if_pos h.1, if_pos h.2]
  rfl

theorem loop_gated (hblank : Text.trim segment.text ≠ [])
    (hgate : ¬ shouldRun segment.runIf p.status) :
    p.loop host below (segment :: segments) = p.loop host below segments := by
  rw [Progress.loop, segmentsLoop, if_neg hblank, if_pos (by simpa using hgate)]
  rfl

/-- A segment that is started. -/
theorem loop_starts (h : p.Starts segment) : p.loop host below (segment :: segments) =
    match runPipeline host below segment.text p.shell with
    | (.error e, t) => (.error e, t)
    | (.ok none, t) => (p.passed t).loop host below segments
    | (.ok (some result), t) =>
      if result.exit then (.ok (p.ranOne result t).exit, (p.ranOne result t).shell)
      else if Text.byteLen (p.ranOne result t).out.text ≥ maxCommandOutputBytes then
        (.ok (p.ranOne result t).cut, (p.ranOne result t).shell)
      else (p.ranOne result t).loop host below segments := by
  rw [Progress.loop, segmentsLoop, if_neg h.1, if_neg (by simpa using h.2), bind_apply]
  rcases runPipeline host below segment.text p.shell with ⟨e | _ | result, t⟩
  · rfl
  · rfl
  · show (if result.exit then _
      else if Text.byteLen (p.ranOne result t).out.text ≥ maxCommandOutputBytes then _ else _ :
        Run Output) _ = _
    dsimp only
    split_ifs <;> rfl

/-- The loop goes on behind the segments it has walked over. -/
theorem Walk.loop (h : Walk host below p before q) :
    p.loop host below (before ++ segments) = q.loop host below segments := by
  induction h with
  | done => rfl
  | blank hblank hrun _ ih => exact (loop_blank hblank hrun).trans ih
  | gated hblank hgate _ ih => exact (loop_gated hblank hgate).trans ih
  | silent hstarts hrun _ ih =>
    rw [List.cons_append, loop_starts hstarts, hrun]
    exact ih
  | ran hstarts hrun hexit hopen _ ih =>
    rw [List.cons_append, loop_starts hstarts, hrun]
    dsimp only
    rw [hexit, if_neg Bool.false_ne_true, if_neg (Nat.not_le_of_lt hopen)]
    exact ih

/-- What one segment does, in front of the way the loop ends behind it. -/
theorem Ended.cons (hwalk : ∀ {before q'}, Walk host below q before q' →
    Walk host below p (segment :: before) q') (h : Ended host below q segments out t) :
    Ended host below p (segment :: segments) out t := by
  cases h with
  | through h => exact .through (hwalk h)
  | missing hsegments h hmissing =>
    exact .missing (by rw [hsegments, List.cons_append]) (hwalk h) hmissing
  | exit hsegments h hstarts hrun hexit =>
    exact .exit (by rw [hsegments, List.cons_append]) (hwalk h) hstarts hrun hexit
  | cut hsegments h hstarts hrun hexit hfull =>
    exact .cut (by rw [hsegments, List.cons_append]) (hwalk h) hstarts hrun hexit hfull

/-- **The ways a line ends.** -/
theorem loop_eq_ok_iff :
    p.loop host below segments = (.ok out, t) ↔ Ended host below p segments out t := by
  constructor
  · intro h
    induction segments generalizing p with
    | nil =>
      rw [loop_nil] at h
      obtain ⟨hout, rfl⟩ := Prod.mk.inj h
      obtain rfl := Except.ok.inj hout
      exact .through .done
    | cons segment segments ih =>
      have hhead : segment :: segments = [] ++ segment :: segments := rfl
      by_cases hblank : Text.trim segment.text = []
      · by_cases hrun : segment.runIf = .always
        · rw [loop_blank hblank hrun] at h
          exact (ih h).cons (.blank hblank hrun)
        · rw [loop_missing ⟨hblank, hrun⟩] at h
          obtain ⟨hout, rfl⟩ := Prod.mk.inj h
          obtain rfl := Except.ok.inj hout
          exact .missing hhead .done ⟨hblank, hrun⟩
      by_cases hgate : shouldRun segment.runIf p.status
      swap
      · rw [loop_gated hblank hgate] at h
        exact (ih h).cons (.gated hblank hgate)
      rw [loop_starts ⟨hblank, hgate⟩] at h
      rcases hrun : runPipeline host below segment.text p.shell with ⟨e | _ | result, u⟩ <;>
        rw [hrun] at h
      · cases h
      · exact (ih h).cons (.silent ⟨hblank, hgate⟩ hrun)
      dsimp only at h
      split_ifs at h with hexit hfull
      · obtain ⟨hout, rfl⟩ := Prod.mk.inj h
        obtain rfl := Except.ok.inj hout
        exact .exit hhead .done ⟨hblank, hgate⟩ hrun hexit
      · obtain ⟨hout, rfl⟩ := Prod.mk.inj h
        obtain rfl := Except.ok.inj hout
        exact .cut hhead .done ⟨hblank, hgate⟩ hrun (Bool.not_eq_true _ ▸ hexit)
          (Nat.not_lt_of_le hfull)
      · exact (ih h).cons (.ran ⟨hblank, hgate⟩ hrun (Bool.not_eq_true _ ▸ hexit)
          (Nat.lt_of_not_le hfull))
  · rintro (⟨h⟩ | ⟨rfl, h, hmissing⟩ | ⟨rfl, h, hstarts, hrun, hexit⟩ |
      ⟨rfl, h, hstarts, hrun, hexit, hfull⟩)
    · rw [← List.append_nil segments, h.loop, loop_nil]
    · rw [h.loop, loop_missing hmissing]
    · rw [h.loop, loop_starts hstarts, hrun]
      dsimp only
      rw [if_pos hexit]
    · rw [h.loop, loop_starts hstarts, hrun]
      dsimp only
      rw [hexit, if_neg Bool.false_ne_true, if_pos (Nat.le_of_not_lt hfull)]

end Loop

/-! ### The line -/

/-- The session when a line comes to its segments. -/
def Shell.entered (s : Shell) : Shell :=
  if s.nesting = 0 then
    { s.withCaptures [] with substBudget := maxCommandOutputBytes, substStderr := [] }
  else s.withCaptures []

/-- Whether a line waits for the body of a here-document. -/
def Parked (s : Shell) (line : Str) : Prop :=
  s.nesting = 0 ∧ (splitHeredoc (stripComment line)).isSome

/-- The segments of a line. -/
def lineSegments (line : Str) : List Segment := splitSegments (stripComment line)

section Line

variable {host : Host} {below : Level} {s t : Shell} {line : Str} {out : Output}

theorem execute_entered (h : ¬ Parked s line) : execute host below line s =
    (Progress.start s.entered).loop host below (lineSegments line) := by
  rw [execute, bind_apply]
  show (if s.nesting = 0 then _ else _ : Run Output) (s.withCaptures []) = _
  rw [Shell.entered]
  split
  · rename_i hs
    have hline : splitHeredoc (stripComment line) = none := by
      rw [← Option.not_isSome_iff_eq_none]
      exact fun hsome ↦ h ⟨hs, hsome⟩
    rw [bind_apply, hline]
    rfl
  · rfl

/-- A parked line comes to nothing yet. -/
theorem execute_parked (host : Host) (below : Level) (h : Parked s line) :
    ∃ t, execute host below line s = (.ok .empty, t) ∧ t.captures = [] ∧
      t.lastStatus = s.lastStatus := by
  obtain ⟨⟨doc, command⟩, hline⟩ := Option.isSome_iff_exists.mp h.2
  exact ⟨_, execute_parks below h.1 hline, rfl, rfl⟩

theorem execute_eq_ok_iff (h : ¬ Parked s line) : execute host below line s = (.ok out, t) ↔
    Ended host below (.start s.entered) (lineSegments line) out t := by
  rw [execute_entered h, loop_eq_ok_iff]

end Line

/-! ### The size of the output -/

/-- The notice at a cut. -/
def truncationNotice : Str := "\n... (output truncated)\n".toList

theorem byteLen_truncateStream_le (text : Str) (budget : ℕ) :
    Text.byteLen (truncateStream text budget) ≤ budget + Text.byteLen truncationNotice := by
  rw [truncateStream]
  split
  · omega
  · rw [Text.byteLen_append]
    exact Nat.add_le_add_right (Text.byteLen_takeBytes_le _ _) _

/-- The line comes to a pipeline that ends the session, and what it has collected and the two
streams of this pipeline are together more than the limit and a notice. -/
def ExitsOver (host : Host) (line : Str) (s : Shell) : Prop :=
  ¬ Parked s line ∧ ∃ before segment rest q result t,
    lineSegments line = before ++ segment :: rest ∧
    Walk host (levels host) (.start s.entered) before q ∧ q.Starts segment ∧
    runPipeline host (levels host) segment.text q.shell = (.ok (some result), t) ∧ result.exit ∧
    maxCommandOutputBytes + Text.byteLen truncationNotice <
      Text.byteLen q.out.text + Text.byteLen result.stderr + Text.byteLen result.output

section Size

variable {host : Host} {below : Level} {p q : Progress} {segments : List Segment}

theorem Walk.open? (h : Walk host below p segments q) (hp : p.open?) : q.open? := by
  induction h with
  | done => exact hp
  | blank _ _ _ ih => exact ih hp
  | gated _ _ _ ih => exact ih hp
  | silent _ _ _ ih => exact ih hp
  | ran _ _ _ hopen _ ih => exact ih hopen

theorem open?_start (s : Shell) : (Progress.start s).open? := by
  show 0 < maxCommandOutputBytes
  decide

theorem byteLen_exit (q : Progress) (result : CommandResult) (t : Shell) :
    Text.byteLen (q.ranOne result t).exit.text =
      Text.byteLen q.out.text + Text.byteLen result.stderr + Text.byteLen result.output := by
  show Text.byteLen (q.out.text ++ result.stderr ++ result.output) = _
  rw [Text.byteLen_append, Text.byteLen_append]

end Size

/-- A cut text falls short of the budget by less than a character. -/
theorem le_byteLen_truncateStream {text : Str} {budget : ℕ} (h : budget < Text.byteLen text) :
    budget + Text.byteLen truncationNotice ≤ Text.byteLen (truncateStream text budget) + 3 := by
  have htake : ∀ (text : Str) (b : ℕ), b < Text.byteLen text →
      b ≤ Text.byteLen (Text.takeBytes b text) + 3 := by
    intro text
    induction text with
    | nil => exact fun b hb ↦ absurd hb (Nat.not_lt_zero b)
    | cons c rest ih =>
      intro b hb
      rw [Text.byteLen_cons] at hb
      have hsize : c.utf8Size ≤ 4 := Char.utf8Size_le_four c
      rw [Text.takeBytes]
      split
      · have := ih (b - c.utf8Size) (by omega)
        rw [Text.byteLen_cons]
        omega
      · omega
  rw [truncateStream, if_neg (Nat.not_le_of_lt h), Text.byteLen_append]
  have := htake text budget h
  show _ ≤ _ + Text.byteLen truncationNotice + 3
  omega

/-- What `history` prints. -/
def listing (history : List Str) : Str :=
  (history.zipIdx.map fun e ↦
      Text.alignRight 5 (Text.decimal (e.2 + 1)) ++ "  ".toList ++ e.1 ++ ['\n']).flatten

/-- `history` at the top. -/
theorem dispatch_history (host : Host) (below : Level) {s : Shell} (hs : s.nesting = 0) :
    ensures (fun _ _ ↦ False) (dispatch host below ["history".toList])
      (fun r t ↦ r = (CommandResult.ok (listing s.history)).truncate ∧ t.nesting = 0 ∧
        t.interactive = s.interactive) s := by
  have hnest : ¬ s.nesting ≥ maxNestedCommands := by
    rw [hs]
    decide
  rw [dispatch]
  simp only [enter, ensures_bind, ensures_get, if_neg hnest, ensures_modify]
  have hinner : dispatchInner host below ["history".toList] =
    CommandResult.truncate <$> history [] := rfl
  rw [hinner, ensures_map, history]
  simp only [ensures_bind, ensures_get, if_neg List.not_mem_nil, ensures_pure]
  refine ⟨rfl, ?_, rfl⟩
  show s.nesting + 1 - 1 = 0
  rw [hs]

/-- `exit` at the top. -/
theorem dispatch_exit (host : Host) (below : Level) {s : Shell} (hs : s.nesting = 0)
    (hinteractive : s.interactive = true) :
    ensures (fun _ _ ↦ False) (dispatch host below ["exit".toList])
      (fun r _ ↦ r.output = logout ∧ r.exit = true) s := by
  have hnest : ¬ s.nesting ≥ maxNestedCommands := by
    rw [hs]
    decide
  rw [dispatch]
  simp only [enter, ensures_bind, ensures_get, if_neg hnest, ensures_modify]
  have hinner : dispatchInner host below ["exit".toList] =
    (get >>= fun s ↦ pure (exitCmd s "exit".toList []) : Run CommandResult) := rfl
  rw [hinner]
  simp only [ensures_bind, ensures_get, ensures_pure]
  refine ⟨?_, rfl⟩
  show (if s.interactive then logout else []) = logout
  rw [hinteractive]
  rfl

/-- A text that was cut. -/
def Full (text : Str) : Prop :=
  maxCommandOutputBytes + Text.byteLen truncationNotice ≤ Text.byteLen text + 3

theorem Full.cut {text text' : Str} (h : Full text) (hle : Text.byteLen text ≤ Text.byteLen text') :
    Full (truncateStream text' maxCommandOutputBytes) := by
  refine le_byteLen_truncateStream ?_
  have hnotice : Text.byteLen truncationNotice = 24 := by decide
  rw [Full, hnotice] at h
  omega

theorem Full.cut_left {text : Str} (h : Full text) (before : Str) :
    Full (truncateStream (before ++ text) maxCommandOutputBytes) :=
  h.cut (by rw [Text.byteLen_append]; omega)

theorem Full.cut_right {text : Str} (h : Full text) (behind : Str) :
    Full (truncateStream (text ++ behind) maxCommandOutputBytes) :=
  h.cut (by rw [Text.byteLen_append]; omega)

/-- `history >&2` as a stage. -/
theorem runStage_history (host : Host) (below : Level) (piped : Option Str) {s : Shell}
    (hs : s.nesting = 0) (hlong : maxCommandOutputBytes < Text.byteLen (listing s.history)) :
    ensures (fun _ _ ↦ False)
      (runStage host below ["history".toList] ⟨none, none, false, true⟩ piped false)
      (fun r t ↦ Full r.stderr ∧ t.nesting = 0 ∧ t.interactive = s.interactive) s := by
  rw [runStage]
  simp only [ensures_bind, ensures_modify, ensures_get, ensures_set, ensures_pure]
  refine ensures_mono (fun _ _ h ↦ h) ?_ (dispatch_history host below ?_)
  · rintro r t ⟨rfl, ht, hti⟩
    exact ⟨le_byteLen_truncateStream hlong, ht, hti⟩
  · exact hs

/-- `exit` as the last stage. -/
theorem runStage_exit (host : Host) (below : Level) (piped : Option Str) {s : Shell}
    (hs : s.nesting = 0) (hinteractive : s.interactive = true) :
    ensures (fun _ _ ↦ False) (runStage host below ["exit".toList] .empty piped true)
      (fun r _ ↦ r.output = logout ∧ r.exit = true) s := by
  rw [runStage]
  simp only [ensures_bind, ensures_modify, ensures_get, ensures_set, ensures_pure]
  refine ensures_mono (fun _ _ h ↦ h) ?_ (dispatch_exit host below ?_ ?_)
  · rintro r t ⟨hout, hexit⟩
    exact ⟨hout, hexit⟩
  · exact hs
  · exact hinteractive

/-- A line that lists the history on its stderr and ends the session. -/
structure ListsAndExits (line first second text text' : Str) : Prop where
  heredoc : (splitHeredoc (stripComment line)).isSome = false
  segments : lineSegments line = [⟨.always, line⟩]
  notBlank : Text.trim line ≠ []
  stages : splitPipeline line = [first, second]
  redirects : splitRedirects first = .ok (text, [⟨.stdout, .dup .stderr⟩])
  plain : text.all isPlain
  words : tokenize text = ["history".toList]
  redirects' : splitRedirects second = .ok (text', [])
  plain' : text'.all isPlain
  words' : tokenize text' = ["exit".toList]

theorem runPipeline_over (host : Host) (below : Level) {s : Shell}
    {line first second text text' : Str} (h : ListsAndExits line first second text text')
    (hs : s.nesting = 0) (hinteractive : s.interactive = true)
    (hlong : maxCommandOutputBytes < Text.byteLen (listing s.history)) :
    ensures (fun _ _ ↦ False) (runPipeline host below line)
      (fun r _ ↦ ∃ result, r = some result ∧ result.exit = true ∧ result.output = logout ∧
        Full result.stderr) s := by
  have hsinks : ∀ Q s, ensures (fun _ _ ↦ False)
    (openRedirects host below .empty [⟨.stdout, .dup .stderr⟩]) Q s ↔
      Q (.ok ⟨none, none, false, true⟩) s := fun Q s ↦ Iff.rfl
  rw [runPipeline]
  simp only [ensures_bind, ensures_get, ensures_set]
  rw [h.stages, stagesLoop, h.redirects]
  simp only [ensures_bind, ensures_parseLine h.plain h.words, hsinks, takeSubstStderr, ensures_get,
    ensures_set, ensures_pure, List.cons_ne_nil, if_false]
  refine ensures_mono (fun _ _ h ↦ h) ?_ (runStage_history host below s.heredocStdin ?_ ?_)
  · rintro r t ⟨hr, ht, hti⟩
    rw [stagesLoop, h.redirects']
    simp only [ensures_bind, ensures_parseLine h.plain' h.words', openRedirects, takeSubstStderr,
      ensures_get, ensures_set, ensures_pure, List.cons_ne_nil, if_false]
    refine ensures_mono (fun _ _ h ↦ h) ?_ (runStage_exit host below (some r.output) ?_ ?_)
    · rintro r' u ⟨hout, hexit⟩
      refine ⟨_, rfl, hexit, hout, ?_⟩
      dsimp only
      exact ((hr.cut_left _).cut_right _).cut_right _
    · exact ht
    · exact hti.trans hinteractive
  · exact hs
  · exact hlong

/-- A long history overflows the output of the line. -/
theorem execute_over (host : Host) (below : Level) {s : Shell} {line first second text text' : Str}
    (h : ListsAndExits line first second text text') (hs : s.nesting = 0)
    (hinteractive : s.interactive = true)
    (hlong : maxCommandOutputBytes < Text.byteLen (listing s.history)) :
    ∃ out t, execute host below line s = (.ok out, t) ∧
      maxCommandOutputBytes + Text.byteLen truncationNotice < Text.byteLen out.text := by
  have hparked : ¬ Parked s line := fun hp ↦ Bool.false_ne_true (h.heredoc.symm.trans hp.2)
  have hentered : s.entered.nesting = 0 ∧ s.entered.interactive = true ∧
      s.entered.history = s.history := by
    rw [Shell.entered, if_pos hs]
    exact ⟨hs, hinteractive, rfl⟩
  rw [← hentered.2.2] at hlong
  obtain ⟨_, t, hrun, result, rfl, hexit, hout, hfull⟩ :=
    returns_of_ensures (runPipeline_over host below h hentered.1 hentered.2.1 hlong)
  have hhead : lineSegments line = [] ++ ⟨.always, line⟩ :: [] := h.segments
  refine ⟨_, _, (execute_eq_ok_iff hparked).mpr
    (.exit hhead .done ⟨h.notBlank, rfl⟩ hrun hexit), ?_⟩
  have hstart : Text.byteLen (Progress.start s.entered).out.text = 0 := rfl
  have hlogout : Text.byteLen logout = 7 := by decide
  have hnotice : Text.byteLen truncationNotice = 24 := by decide
  rw [Full, hnotice] at hfull
  rw [byteLen_exit, hout, hnotice, hlogout, hstart]
  omega

/-- A session in which three hundred lines of four thousand characters were entered. -/
def talkative : Shell :=
  { Shell.bare with history := List.replicate 300 (List.replicate 4000 'a') }

theorem byteLen_listing (history : List Str) :
    (history.map Text.byteLen).sum ≤ Text.byteLen (listing history) := by
  have hfrom : ∀ k, (history.map Text.byteLen).sum ≤ Text.byteLen
      ((history.zipIdx k).map fun e ↦ Text.alignRight 5 (Text.decimal (e.2 + 1)) ++
        "  ".toList ++ e.1 ++ ['\n']).flatten := by
    induction history with
    | nil => exact fun k ↦ Nat.zero_le _
    | cons entry history ih =>
      intro k
      have := ih (k + 1)
      rw [List.zipIdx_cons, List.map_cons, List.map_cons, List.flatten_cons, List.sum_cons,
        Text.byteLen_append, Text.byteLen_append, Text.byteLen_append]
      dsimp only
      omega
  exact hfrom 0

end Interp

end Mimic
