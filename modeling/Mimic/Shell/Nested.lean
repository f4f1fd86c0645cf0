import Mimic.Shell.Oblivious

/-!
# `sh -c`

`sh -c` expands its line and dispatches the words, and the line executor is not on this way: a line
that is one command without redirects comes to the same (`shellCmd_agrees`), and `;`, `|` and `>`
become arguments of the first command (`shellCmd_compound_differs`).
-/

namespace Mimic

namespace Interp

open Mimic.Parser Outcomes

/-- What `sh -c` in `s` comes to, and what the line comes to: both streams, the status and the
filesystem. The captures come behind those of `s`, where the line clears them. -/
def Agrees (s : Shell) (result : CommandResult) (t : Shell) (out : Output) (v : Shell) : Prop :=
  out.stdout = result.output ∧ out.stderr = result.stderr ∧ out.status = result.status ∧
    t.captures = s.captures ++ v.captures ∧ v.vfs = t.vfs

/-- `sh -c` runs the line like the shell does, also where one of them stops. -/
def RunsLikeLine (host : Host) (below : Level) (line : Str) (s : Shell) : Prop :=
  ensures (fun e _ ↦ ∃ v, below.execute line s = (.error e, v))
    (shellCmd host below ["-c".toList, line])
    (fun result t ↦ ∃ out v, below.execute line s = (.ok out, v) ∧ Agrees s result t out v) s

/-- A line that is one command, without redirects and without a comment. -/
structure OneCommand (line : Str) : Prop where
  segments : lineSegments line = [⟨.always, line⟩]
  stages : splitPipeline line = [line]
  redirects : splitRedirects line = .ok (line, [])

/-- The session gives a command the standard streams that the first command of a line has. -/
structure Shell.Fresh (u : Shell) : Prop where
  stdin : u.stdin = none
  tty : u.stdoutIsTty = (u.substDepth == 0)

/-- Neither stream has been cut in the middle of a character. -/
def CommandResult.Steady (result : CommandResult) : Prop :=
  truncateStream result.output maxCommandOutputBytes = result.output ∧
    truncateStream result.stderr maxCommandOutputBytes = result.stderr

/-- `sh -c` reaches nothing that the line executor does for it: the line is one command, its
expansion leaves no stderr, the command has the streams of a line of its own, and its output is not
cut in the middle of a character. -/
structure Direct (below : Level) (line : Str) (s : Shell) : Prop where
  one : OneCommand line
  nested : s.nesting ≠ 0
  noBody : s.heredocStdin = none
  expands : ensures (fun _ _ ↦ True) (below.expand line) (fun expanded u ↦
    u.substStderr = [] ∧ (tokenize expanded ≠ [] → u.Fresh ∧
      ensures (fun _ _ ↦ True) (below.dispatch (tokenize expanded))
        (fun result _ ↦ result.Steady) u)) s

/-! ### One stage -/

section Stage

variable {host : Host} {below : Level} {line : Str} {argv : List Str} {s t u v : Shell}
  {before : List Capture} {trace : List Event}

/-- What is the same behind `sh -c` and behind its line. -/
def Beside (before : List Capture) (t v : Shell) : Prop :=
  t.captures = before ++ v.captures ∧ v.vfs = t.vfs

/-- A stage with the streams the session has anyway runs its words in the session. -/
theorem runStage_fresh (hv : v.Fresh) : runStage host below argv .empty none true v =
    (dispatch host below argv >>= fun result ↦ do
      modify fun w ↦
        { w with stdin := none, stdoutIsTty := true }.log (.piped w.nesting result.output)
      return result) (v.log (.ran v.nesting argv none)) := by
  have hsame : { v with stdin := none, stdoutIsTty := true && true && v.substDepth == 0 } = v := by
    rw [Bool.true_and, Bool.true_and, ← hv.stdin, ← hv.tty]
  rw [bind_apply, runStage, bind_apply]
  show (dispatch host below argv >>= _) (Shell.log
    { v with stdin := none, stdoutIsTty := true && true && v.substDepth == 0 } _) = _
  rw [hsame, bind_apply]
  rcases dispatch host below argv (v.log (.ran v.nesting argv none)) with ⟨e | result, w⟩
  · rfl
  · show (Except.ok (routeOutput host.now w.vfs result .empty).2, Shell.log
      { w with
        stdin := none, stdoutIsTty := true
        vfs := (routeOutput host.now w.vfs result .empty).1 } _) = _
    rw [routeOutput_empty]
    rfl

/-- So it comes to what the words come to. -/
theorem runStage_mirrors_dispatch (hb : below.Oblivious) (hhost : host.Blind) (hv : v.Fresh) :
    Mirrors (Beside before) (dispatch host below argv) (v.under before trace)
      (runStage host below argv .empty none true) v := by
  rw [Mirrors, runStage_fresh hv]
  refine ensures_mono ?_ ?_
    (dispatch_mirrors hb hhost argv (v.log (.ran v.nesting argv none)) before trace)
  · rintro e _ ⟨w, hw⟩
    exact ⟨w, Mirrors.bind_error hw⟩
  · rintro result _ ⟨w, hw, trace', rfl⟩
    exact ⟨_, Mirrors.bind_ok hw, rfl, rfl⟩

/-- The only stage of a line, where its words have been expanded. -/
theorem stagesLoop_one (h : OneCommand line) (hparse : parseLine host below line s = (.ok argv, v))
    (hheld : v.substStderr = []) : stagesLoop host below none [] none [line] s =
      (if argv = [] then pure none
      else runStage host below argv .empty none true >>= fun result ↦ pure (some { result with
        stderr := truncateStream result.stderr maxCommandOutputBytes }) :
          Run (Option CommandResult)) v := by
  have hv : { v with substStderr := [] } = v := by rw [← hheld]
  rw [stagesLoop, h.redirects]
  dsimp only
  rw [bind_apply, hparse]
  show (if argv = [] then _ else _ : Run (Option CommandResult)) { v with substStderr := [] } = _
  rw [hv, hheld]
  split <;> rfl

theorem stagesLoop_one_error {e : Stop} (h : OneCommand line)
    (hparse : parseLine host below line s = (.error e, v)) :
    stagesLoop host below none [] none [line] s = (.error e, v) := by
  rw [stagesLoop, h.redirects]
  dsimp only
  rw [bind_apply, hparse]

/-- What a line comes to behind its only pipeline. -/
def lineEnd (s : Shell) : Except Stop (Option CommandResult) × Shell → Except Stop Output × Shell
  | (.error e, v) => (.error e, v)
  | (.ok none, v) => (.ok .empty, v)
  | (.ok (some result), v) =>
    let p := (Progress.start s).ranOne result v
    if result.exit then (.ok p.exit, p.shell)
    else if Text.byteLen p.out.text ≥ maxCommandOutputBytes then (.ok p.cut, p.shell)
    else (.ok p.finish, p.shell)

/-- The line as its only segment. -/
theorem execute_one (host : Host) (below : Level) (h : OneCommand line) (hs : s.nesting ≠ 0)
    (hnotBlank : Text.trim line ≠ []) (hbody : s.heredocStdin = none) : execute host below line s =
      lineEnd (s.withCaptures []) (stagesLoop host below none [] none [line]
        ((s.withCaptures []).log (.pipeline s.nesting none))) := by
  have hentered : s.entered = s.withCaptures [] := if_neg hs
  have hpipeline : runPipeline host below line (s.withCaptures []) =
      stagesLoop host below none [] none [line]
        ((s.withCaptures []).log (.pipeline s.nesting none)) := by
    have hsame : (s.withCaptures []).withHeredoc none = s.withCaptures [] := by
      rw [Shell.withHeredoc, ← hbody]
      rfl
    show stagesLoop host below s.heredocStdin [] none (splitPipeline line)
      (((s.withCaptures []).withHeredoc none).log (.pipeline s.nesting s.heredocStdin)) = _
    rw [h.stages, hbody, hsame]
  rw [execute_entered fun hparked ↦ hs hparked.1, h.segments, hentered,
    loop_starts ⟨hnotBlank, rfl⟩, Progress.start, hpipeline]
  rcases stagesLoop host below none [] none [line] _ with ⟨e | _ | result, v⟩
  · rfl
  · dsimp only
    rw [loop_nil]
    rfl
  · dsimp only [lineEnd]
    rw [loop_nil]
    rfl

/-- A blank line. -/
theorem execute_blank_one (h : OneCommand line) (hs : s.nesting ≠ 0)
    (hblank : Text.trim line = []) :
    execute host below line s = (.ok .empty, s.withCaptures []) := by
  rw [execute_entered fun hparked ↦ hs hparked.1, h.segments, loop_blank hblank rfl, loop_nil,
    Shell.entered, if_neg hs]
  rfl

/-- The streams of the only command of a line. -/
theorem lineEnd_agrees {result : CommandResult} (hsteady : result.Steady)
    (hbeside : Beside s.captures t v) : ∃ out w,
      lineEnd (s.withCaptures []) (.ok (some result), v) = (.ok out, w) ∧
        Agrees s result t out w := by
  dsimp only [lineEnd]
  split_ifs
  · exact ⟨_, _, rfl, rfl, rfl, rfl, hbeside⟩
  · exact ⟨_, _, rfl, hsteady.1, hsteady.2, rfl, hbeside⟩
  · exact ⟨_, _, rfl, rfl, rfl, rfl, hbeside⟩

end Stage

/-! ### The command -/

theorem isPlain_of_isWhitespace {c : Char} (h : Text.isWhitespace c) : isPlain c := by
  simp only [isPlain, Bool.and_eq_true, bne_iff_ne, ne_eq]
  refine ⟨⟨⟨⟨?_, ?_⟩, ?_⟩, ?_⟩, ?_⟩
  all_goals
    rintro rfl
    exact absurd h (by decide)

theorem tokenize_blank {text : Str} (h : ∀ c ∈ text, Text.isWhitespace c) : tokenize text = [] := by
  rw [tokenize]
  induction text with
  | nil => rfl
  | cons c rest ih =>
    have hc := isPlain_of_isWhitespace (h c List.mem_cons_self)
    simp only [isPlain, Bool.and_eq_true, bne_iff_ne, ne_eq] at hc
    obtain ⟨⟨⟨-, hesc⟩, hsingle⟩, hdouble⟩ := hc
    rw [tokenizeLoop.eq_def]
    simp only [hsingle, hdouble, hesc, h c List.mem_cons_self, false_and, if_false,
      Bool.false_eq_true, and_self]
    exact ih fun c hc ↦ h c (List.mem_cons_of_mem _ hc)

section Command

variable {host : Host} {below : Level} {line : Str} {argv : List Str} {n : ℕ} {s v : Shell}
  {trace : List Event}

theorem shellCmd_line : shellCmd host below ["-c".toList, line] = (do
    let expanded ← below.expand line
    match tokenize expanded with
    | [] => return .ok []
    | argv => below.dispatch argv) := by
  rw [shellCmd]
  exact if_pos rfl

/-- The words of a line, expanded in the session and in the line. -/
theorem expand_beside (host : Host) (line : Str) (s : Shell) (hb : below.Oblivious) :
    Mirrors (Like s.captures) (expandWith host below line .words) s
      (expandWith host below line .words) ((s.withCaptures []).log (.pipeline s.nesting none)) := by
  have hs : ((s.withCaptures []).log (.pipeline s.nesting none)).under s.captures s.trace = s := by
    show { s with captures := s.captures ++ [] } = s
    rw [List.append_nil]
  have hexpand := expandWith_mirrors hb host line
    ((s.withCaptures []).log (.pipeline s.nesting none)) s.captures s.trace
  rw [hs] at hexpand
  exact hexpand

/-- The words of a command, dispatched in the session and run as the only stage. -/
theorem dispatch_beside (hb : below.Oblivious) (hhost : host.Blind) (hv : v.Fresh)
    (hsteady : ensures (fun _ _ ↦ True) (dispatch host below argv) (fun result _ ↦ result.Steady)
      (v.under s.captures trace)) :
    ensures (fun e _ ↦ ∃ w, lineEnd (s.withCaptures []) ((runStage host below argv .empty none true
        >>= fun result ↦ pure (some { result with
          stderr := truncateStream result.stderr maxCommandOutputBytes })) v) = (.error e, w))
      (dispatch host below argv)
      (fun result t ↦ ∃ out w, lineEnd (s.withCaptures []) ((runStage host below argv .empty none
        true >>= fun result ↦ pure (some { result with
          stderr := truncateStream result.stderr maxCommandOutputBytes })) v) = (.ok out, w) ∧
        Agrees s result t out w)
      (v.under s.captures trace) := by
  have hstage : Mirrors (Beside s.captures) (dispatch host below argv) (v.under s.captures trace)
    (runStage host below argv .empty none true) v := runStage_mirrors_dispatch hb hhost hv
  rcases hrun : dispatch host below argv (v.under s.captures trace) with ⟨e | result, t⟩
  · obtain ⟨w, hw⟩ := ensures_error hrun hstage
    rw [ensures, hrun, Mirrors.bind_error hw]
    exact ⟨w, rfl⟩
  · obtain ⟨w, hw, hbeside⟩ := ensures_ok hrun hstage
    have hresult := ensures_ok hrun hsteady
    rw [ensures, hrun, Mirrors.bind_ok hw, hresult.2]
    exact lineEnd_agrees hresult hbeside

/-- `sh -c` on a blank line. -/
theorem shellCmd_blank (h : Direct (level host (n + 1)) line s) (hblank : Text.trim line = []) :
    RunsLikeLine host (level host (n + 1)) line s := by
  have hspace := Text.trim_eq_nil_iff.mp hblank
  have hplain : line.all isPlain :=
    List.all_eq_true.mpr fun c hc ↦ isPlain_of_isWhitespace (hspace c hc)
  rw [RunsLikeLine, shellCmd_line, ensures_bind]
  refine ensures_of_ok (expandLoop_plain host (level host n) hplain s) ?_
  rw [tokenize_blank hspace]
  exact ⟨.empty, _, execute_blank_one h.one h.nested hblank, rfl, rfl, rfl,
    (List.append_nil _).symm, rfl⟩

/-- **`sh -c` on one command.** -/
theorem shellCmd_agrees (hhost : host.Blind) (h : Direct (level host n) line s) :
    RunsLikeLine host (level host n) line s := by
  cases n with
  | zero => exact ⟨s, rfl⟩
  | succ n =>
    by_cases hblank : Text.trim line = []
    · exact shellCmd_blank h hblank
    have hb := level_oblivious hhost n
    have hexecute : (level host (n + 1)).execute line s = _ :=
      execute_one host (level host n) h.one h.nested hblank h.noBody
    have hexpands : ensures _ (expandWith host (level host n) line .words) _ s := h.expands
    have hbeside := expand_beside host line s hb
    rw [RunsLikeLine, shellCmd_line, ensures_bind, hexecute]
    show ensures _ (expandWith host (level host n) line .words) _ s
    rcases hrun : expandWith host (level host n) line .words s with ⟨e | expanded, u⟩
    · obtain ⟨v, hv⟩ := ensures_error hrun hbeside
      rw [ensures, hrun, stagesLoop_one_error h.one (Mirrors.bind_error hv)]
      exact ⟨v, rfl⟩
    · obtain ⟨v, hv, trace, rfl⟩ := ensures_ok hrun hbeside
      obtain ⟨hheld, hcommand⟩ := ensures_ok hrun hexpands
      rw [stagesLoop_one h.one (Mirrors.bind_ok hv) hheld]
      refine ensures_of_ok hrun ?_
      rcases hwords : tokenize expanded with _ | ⟨word, words⟩
      · exact ⟨.empty, v, rfl, rfl, rfl, rfl, rfl, rfl⟩
      · rw [hwords] at hcommand
        obtain ⟨hfresh, hsteady⟩ := hcommand (List.cons_ne_nil word words)
        rw [if_neg (List.cons_ne_nil word words)]
        exact dispatch_beside hb hhost ⟨hfresh.stdin, hfresh.tty⟩ hsteady

/-- A command without expansions. -/
theorem direct_plain (hone : OneCommand line) (hs : s.nesting ≠ 0) (hbody : s.heredocStdin = none)
    (hheld : s.substStderr = []) (hfresh : s.Fresh) (hplain : line.all isPlain)
    (hwords : tokenize line = argv)
    (hsteady : ensures (fun _ _ ↦ True) (dispatch host (level host n) argv)
      (fun result _ ↦ result.Steady) s) : Direct (level host (n + 1)) line s where
  one := hone
  nested := hs
  noBody := hbody
  expands := by
    refine ensures_of_ok (expandLoop_plain host (level host n) hplain s)
      ⟨hheld, fun _ ↦ ⟨hfresh, ?_⟩⟩
    rw [hwords]
    exact hsteady

/-- Two statuses that differ. -/
theorem not_runsLikeLine {result : CommandResult} {out : Output} {t : Shell}
    (hrun : shellCmd host below ["-c".toList, line] s = (.ok result, t))
    (hline : below.execute line s = (.ok out, v)) (hstatus : out.status ≠ result.status) :
    ¬ RunsLikeLine host below line s := by
  intro h
  obtain ⟨out', v', hline', -, -, hstatus', -⟩ := ensures_ok hrun h
  obtain ⟨hsame, -⟩ := Prod.mk.inj (hline.symm.trans hline')
  obtain rfl := Except.ok.inj hsame
  exact hstatus hstatus'

end Command

/-- The bare session one level down. -/
def Shell.bareNested : Shell := Shell.bare.atDepth 1 0

variable {line : Str}

theorem direct_true (hone : OneCommand line) (hplain : line.all isPlain)
    (hwords : tokenize line = ["true".toList]) :
    Direct (level bareHost 1) line Shell.bareNested := by
  refine direct_plain hone (by decide) rfl rfl ⟨rfl, rfl⟩ hplain hwords ?_
  obtain ⟨result, t, hrun, hresult⟩ := returns_of_any
    (m := dispatch bareHost (level bareHost 0) ["true".toList]) (s := Shell.bareNested)
    (p := fun result _ ↦ result = .ok []) (by decide +kernel)
  refine ensures_of_ok hrun ?_
  rw [of_decide_eq_true hresult]
  exact ⟨by decide, by decide⟩

theorem shellCmd_agrees_true :
    RunsLikeLine bareHost (level bareHost 1) "true".toList Shell.bareNested :=
  shellCmd_agrees bareHost_blind (direct_true
    ⟨by decide +kernel, by decide +kernel, by decide +kernel⟩ (by decide +kernel)
    (by decide +kernel))

/-- Two commands are the words of one. -/
theorem shellCmd_compound_differs : (splitHeredoc "true; true".toList).isNone ∧
    ∃ result t out v,
      shellCmd bareHost (levels bareHost) ["-c".toList, "true; true".toList] Shell.bareNested =
        (.ok result, t) ∧ result.status = 127 ∧
      (levels bareHost).execute "true; true".toList Shell.bareNested = (.ok out, v) ∧
        out.status = 0 ∧
      ¬ RunsLikeLine bareHost (levels bareHost) "true; true".toList Shell.bareNested := by
  refine ⟨by decide +kernel, ?_⟩
  obtain ⟨result, t, hrun, hresult⟩ := returns_of_any
    (m := shellCmd bareHost (levels bareHost) ["-c".toList, "true; true".toList])
    (s := Shell.bareNested) (p := fun result _ ↦ result.status = 127) (by decide +kernel)
  obtain ⟨out, v, hline, hout⟩ := returns_of_any
    (m := (levels bareHost).execute "true; true".toList)
    (s := Shell.bareNested) (p := fun out _ ↦ out.status = 0) (by decide +kernel)
  have hresult := of_decide_eq_true hresult
  have hout := of_decide_eq_true hout
  exact ⟨result, t, out, v, hrun, hresult, hline, hout,
    not_runsLikeLine hrun hline (by rw [hresult, hout]; decide)⟩

end Interp

end Mimic
