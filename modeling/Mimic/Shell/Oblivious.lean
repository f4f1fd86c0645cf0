import Mimic.Foundation.Mirrors
import Mimic.Shell.Segments

/-!
# What the interpreter does not read

Two sessions that differ in the log, and in captures that one of them has in front, go the same way
(`Like`). So nothing depends on the log, which the source does not have, and captures are only
pushed. A command line clears the captures first, and comes to the same ones from both.
-/

namespace Mimic

namespace Interp

open Mimic.Parser Outcomes

/-- The session with more captures in front, and another log. -/
@[simps]
def Shell.under (t : Shell) (before : List Capture) (trace : List Event) : Shell :=
  { t with captures := before ++ t.captures, trace := trace }

/-- The first session is the second, with these captures in front and another log. -/
def Like (before : List Capture) (s t : Shell) : Prop := ∃ trace, s = t.under before trace

/-- Commands do not read the captures, and there is no log to read. -/
def Host.Blind (host : Host) : Prop :=
  ∀ cmd args s before trace, host.command cmd args (s.under before trace) = host.command cmd args s

theorem bareHost_blind : bareHost.Blind := fun _ _ _ _ _ ↦ rfl

/-- The functions of a level do not read the captures and the log. -/
structure Level.Oblivious (below : Level) : Prop where
  execute : ∀ line t before trace,
    Mirrors (Like []) (below.execute line) (Shell.under t before trace) (below.execute line) t
  expand : ∀ line t before trace,
    Mirrors (Like before) (below.expand line) (Shell.under t before trace) (below.expand line) t
  dispatch : ∀ argv t before trace,
    Mirrors (Like before) (below.dispatch argv) (Shell.under t before trace) (below.dispatch argv) t

variable {t v : Shell} {before : List Capture} {trace : List Event}

theorem like_under : Like before (t.under before trace) t := ⟨trace, rfl⟩

theorem value_under (parameter : Parameter) :
    (t.under before trace).value parameter = t.value parameter := by
  cases parameter <;> rfl

/-- A subshell ends, and its captures come behind the ones there were. -/
theorem restore_under (trace' : List Event) :
    (v.under [] trace').restore (t.under before trace) = (v.restore t).under before trace' := by
  rw [Shell.restore, Shell.restore, Shell.under]
  simp only [Shell.under, List.append_assoc, List.nil_append]

section Functions

variable {host : Host} {below : Level} (hb : below.Oblivious)

include hb

/-! ### Expansion and redirects -/

theorem substitute_mirrors (body : Str) (t : Shell) (before : List Capture) (trace : List Event) :
    Mirrors (Like before) (substitute below body) (t.under before trace)
      (substitute below body) t := by
  rw [substitute, Mirrors.get_bind]
  refine .ite (fun _ ↦ .pure like_under) fun _ ↦ ?_
  simp only [enter, Mirrors.modify_bind]
  refine (hb.execute body ((t.atDepth (t.nesting + 1) (t.substDepth + 1)).withCaptures []) []
    _).bind ?_
  rintro output _ v ⟨trace', rfl⟩
  simp only [Mirrors.modify_bind, Mirrors.get_bind]
  rw [restore_under]
  exact .pure ⟨_, rfl⟩

theorem arithmetic_mirrors (body : Str) (t : Shell) (before : List Capture) (trace : List Event) :
    Mirrors (Like before) (arithmetic host below body) (t.under before trace)
      (arithmetic host below body) t := by
  rw [arithmetic, Mirrors.get_bind]
  refine .ite (fun _ ↦ .pure like_under) fun _ ↦ ?_
  simp only [enter, Mirrors.modify_bind]
  refine (hb.expand body (t.atDepth (t.nesting + 1) t.substDepth) before _).bind ?_
  rintro expanded _ v ⟨trace', rfl⟩
  simp only [Mirrors.get_bind, Mirrors.modify_bind]
  exact .pure ⟨_, rfl⟩

theorem regionValue_mirrors (region : Substitution) (t : Shell) (before : List Capture)
    (trace : List Event) :
    Mirrors (Like before) (regionValue host below region) (t.under before trace)
      (regionValue host below region) t := by
  rw [regionValue]
  split
  · exact .stop
  · split
    · exact arithmetic_mirrors hb _ t before trace
    · exact substitute_mirrors hb _ t before trace

theorem expandLoop_mirrors (mode : Expansion) (skip : ℕ) (inSingle inDouble : Bool) (text : Str)
    (t : Shell) (before : List Capture) (trace : List Event) :
    Mirrors (Like before) (expandLoop host below mode skip inSingle inDouble text)
      (t.under before trace) (expandLoop host below mode skip inSingle inDouble text) t := by
  fun_induction expandLoop host below mode skip inSingle inDouble text generalizing t trace
  case case1 => exact .pure like_under
  case case2 ih => exact ih t trace
  case case3 ih =>
    refine (regionValue_mirrors hb _ t before trace).bind ?_
    rintro value _ v ⟨trace', rfl⟩
    exact (ih v trace').bind fun _ _ _ h ↦ .pure h
  case case4 => exact .pure like_under
  case case10 parameter _ _ ih =>
    rw [Mirrors.get_bind, value_under]
    exact (ih t trace).bind fun _ _ _ h ↦ .pure h
  -- the other cases put a text in front of what comes out of the rest of the line
  all_goals
    rename_i ih
    exact (ih t trace).bind fun _ _ _ h ↦ .pure h

theorem expandWith_mirrors (host : Host) (line : Str) (t : Shell) (before : List Capture)
    (trace : List Event) :
    Mirrors (Like before) (expandWith host below line .words) (t.under before trace)
      (expandWith host below line .words) t :=
  expandLoop_mirrors hb .words 0 false false line t before trace

theorem parseLine_mirrors (line : Str) (t : Shell) (before : List Capture) (trace : List Event) :
    Mirrors (Like before) (parseLine host below line) (t.under before trace)
      (parseLine host below line) t :=
  (expandWith_mirrors hb host line t before trace).bind fun _ _ _ h ↦ .pure h

theorem openRedirects_mirrors (sinks : Sinks) (redirects : List Redirect) (t : Shell)
    (before : List Capture) (trace : List Event) :
    Mirrors (Like before) (openRedirects host below sinks redirects) (t.under before trace)
      (openRedirects host below sinks redirects) t := by
  induction redirects generalizing sinks t trace with
  | nil => exact .pure like_under
  | cons redirect redirects ih =>
    rw [openRedirects]
    split
    · rename_i path append _
      refine (parseLine_mirrors hb path t before trace).bind ?_
      rintro words _ v ⟨trace', rfl⟩
      split
      · rename_i word
        simp only [Mirrors.get_bind, Mirrors.set_bind]
        have hopen : openRedirect host.now (v.under before trace') word append =
          openRedirect host.now v word append := rfl
        rw [hopen]
        split
        · exact .pure ⟨_, rfl⟩
        · exact ih _ { v with vfs := (openRedirect host.now v word append).1 } trace'
      · exact .pure like_under
    · split
      · exact ih _ t trace
      · exact ih _ t trace

/-! ### Commands -/

/-- The captures in front are collected with the others. -/
theorem scriptLoop_mirrors (collected : List Capture) (out errs : Str) (status : ℤ)
    (lines : List Str) (t : Shell) (before : List Capture) (trace : List Event) :
    Mirrors (Like before) (scriptLoop below (before ++ collected) out errs status lines)
      (t.under [] trace) (scriptLoop below collected out errs status lines) t := by
  induction lines generalizing collected out errs status t trace with
  | nil =>
    rw [scriptLoop, scriptLoop, Mirrors.modify_bind]
    exact .pure ⟨trace, rfl⟩
  | cons line lines ih =>
    rw [scriptLoop, scriptLoop]
    refine .ite (fun _ ↦ ih _ _ _ _ t trace) fun _ ↦ ?_
    rw [Mirrors.modify_bind]
    refine (hb.execute (Text.trim line) (t.log (.scriptLine (Text.trim line))) [] _).bind ?_
    rintro result _ v ⟨trace', rfl⟩
    simp only [Mirrors.get_bind, Mirrors.set_bind, Shell.under_captures, List.nil_append,
      List.append_assoc]
    refine .ite (fun _ ↦ ?_) fun _ ↦ ih _ _ _ _ _ _
    rw [Mirrors.modify_bind]
    exact .pure ⟨_, rfl⟩

theorem runScript_mirrors (text : Str) (t : Shell) (before : List Capture) (trace : List Event) :
    Mirrors (Like before) (runScript below text) (t.under before trace) (runScript below text)
      t := by
  simp only [runScript, Mirrors.get_bind, Mirrors.set_bind, Shell.under_captures]
  exact scriptLoop_mirrors hb t.captures [] [] 0 _ _ before _

theorem shellCmd_mirrors (args : List Str) (t : Shell) (before : List Capture)
    (trace : List Event) :
    Mirrors (Like before) (shellCmd host below args) (t.under before trace)
      (shellCmd host below args) t := by
  induction args with
  | nil =>
    rw [shellCmd, Mirrors.get_bind, Shell.under_stdin]
    split
    · exact .ite (fun _ ↦ .pure like_under) fun _ ↦ runScript_mirrors hb _ t before trace
    · exact .pure like_under
  | cons arg args ih =>
    rw [shellCmd.eq_def]
    simp only
    refine .ite (fun _ ↦ ?_) fun _ ↦ .ite (fun _ ↦ ih) fun _ ↦ ?_
    · split
      · exact .pure like_under
      · refine (hb.expand _ t before trace).bind ?_
        rintro expanded _ v ⟨trace', rfl⟩
        split
        · exact .pure ⟨_, rfl⟩
        · exact hb.dispatch _ v before trace'
    · rw [Mirrors.get_bind, Shell.under_vfs, Shell.under_cwd]
      split
      · exact .pure like_under
      · split
        · exact .pure like_under
        · exact runScript_mirrors hb _ t before trace

theorem scp_mirrors (args : List Str) (t : Shell) (before : List Capture) (trace : List Event) :
    Mirrors (Like before) (scp below args) (t.under before trace) (scp below args) t := by
  simp only [scp]
  refine .ite (fun _ ↦ .pure like_under) fun _ ↦ ?_
  split
  · exact .pure like_under
  · exact hb.dispatch _ t before trace

theorem sudoCmd_mirrors (args : List Str) (t : Shell) (before : List Capture)
    (trace : List Event) :
    Mirrors (Like before) (sudoCmd host below args) (t.under before trace)
      (sudoCmd host below args) t := by
  rw [sudoCmd, Mirrors.get_bind]
  split
  · exact .pure like_under
  · refine .ite (fun _ ↦ ?_) fun _ ↦ .pure like_under
    rw [Mirrors.set_bind]
    split
    · exact .pure ⟨trace, rfl⟩
    · exact .pure ⟨trace, rfl⟩
  · rw [Mirrors.set_bind]
    refine (hb.dispatch _ { t with uid := 0, gid := 0 } before trace).bind ?_
    rintro result _ v ⟨trace', rfl⟩
    rw [Mirrors.modify_bind]
    exact .pure ⟨_, rfl⟩

theorem nohup_mirrors (args : List Str) (t : Shell) (before : List Capture) (trace : List Event) :
    Mirrors (Like before) (nohup below args) (t.under before trace) (nohup below args) t := by
  rw [nohup]
  split
  · exact .pure like_under
  · exact (hb.dispatch _ t before trace).bind fun _ _ _ h ↦ .pure h

theorem xargsLoop_mirrors (command : List Str) (out errs : Str) (status : ℤ)
    (groups : List (List Str)) (t : Shell) (before : List Capture) (trace : List Event) :
    Mirrors (Like before) (xargsLoop below command out errs status groups) (t.under before trace)
      (xargsLoop below command out errs status groups) t := by
  induction groups generalizing out errs status t trace with
  | nil => exact .pure like_under
  | cons group groups ih =>
    refine (hb.dispatch _ t before trace).bind ?_
    rintro result _ v ⟨trace', rfl⟩
    exact .ite (fun _ ↦ .pure ⟨_, rfl⟩) fun _ ↦ ih _ _ _ v trace'

theorem xargs_mirrors (args : List Str) (t : Shell) (before : List Capture) (trace : List Event) :
    Mirrors (Like before) (xargs below args) (t.under before trace) (xargs below args) t := by
  rw [xargs, Mirrors.get_bind]
  exact .ite (fun _ ↦ .pure like_under) fun _ ↦ xargsLoop_mirrors hb _ _ _ _ _ t before trace

omit hb in
theorem history_mirrors (args : List Str) (t : Shell) (before : List Capture)
    (trace : List Event) :
    Mirrors (Like before) (history args) (t.under before trace) (history args) t := by
  rw [history, Mirrors.get_bind]
  refine .ite (fun _ ↦ ?_) fun _ ↦ .pure like_under
  rw [Mirrors.set_bind]
  exact .pure ⟨_, rfl⟩

omit hb in
theorem leaf_mirrors (hhost : host.Blind) (cmd : Str) (args : List Str) (t : Shell)
    (before : List Capture) (trace : List Event) :
    Mirrors (Like before) (leaf host cmd args) (t.under before trace) (leaf host cmd args) t := by
  rw [leaf, Mirrors.get_bind, hhost]
  simp only [Mirrors.set_bind]
  refine .pure ⟨trace ++ (host.command cmd args t).captures.map .captured, ?_⟩
  simp only [Shell.apply, Shell.under, List.append_assoc]

variable (hhost : host.Blind)

include hhost

theorem handler_mirrors (cmd : Str) (args : List Str) (run : Run CommandResult)
    (hrun : handler host below cmd args = some run) (t : Shell) (before : List Capture)
    (trace : List Event) : Mirrors (Like before) run (t.under before trace) run t := by
  simp only [handler] at hrun
  split_ifs at hrun <;> cases hrun
  · exact sudoCmd_mirrors hb args t before trace
  · exact shellCmd_mirrors hb args t before trace
  · exact scp_mirrors hb args t before trace
  · exact xargs_mirrors hb args t before trace
  · exact nohup_mirrors hb args t before trace
  · exact history_mirrors args t before trace
  · exact leaf_mirrors hhost cmd args t before trace

theorem dispatchInner_mirrors (argv : List Str) (t : Shell) (before : List Capture)
    (trace : List Event) :
    Mirrors (Like before) (dispatchInner host below argv) (t.under before trace)
      (dispatchInner host below argv) t := by
  cases argv with
  | nil => exact .stop
  | cons cmd args =>
    rw [dispatchInner]
    refine .ite (fun _ ↦ .pure like_under) fun _ ↦ .ite (fun _ ↦ .pure like_under) fun _ ↦
      .ite (fun _ ↦ ?_) fun _ ↦ ?_
    · rw [Mirrors.get_bind]
      exact .pure like_under
    · split
      · rename_i run hrun
        exact (handler_mirrors hb hhost cmd args run hrun t before trace).map
      · exact .ite (fun _ ↦ .pure like_under) fun _ ↦ .pure like_under

theorem dispatch_mirrors (argv : List Str) (t : Shell) (before : List Capture)
    (trace : List Event) :
    Mirrors (Like before) (dispatch host below argv) (t.under before trace)
      (dispatch host below argv) t := by
  rw [dispatch, Mirrors.get_bind]
  refine .ite (fun _ ↦ .pure like_under) fun _ ↦ ?_
  simp only [enter, Mirrors.modify_bind]
  refine (dispatchInner_mirrors hb hhost argv (t.atDepth (t.nesting + 1) t.substDepth) before
    _).bind ?_
  rintro result _ v ⟨trace', rfl⟩
  simp only [Mirrors.modify_bind, Mirrors.get_bind]
  exact .pure ⟨_, rfl⟩

/-! ### Pipelines and lines -/

theorem runStage_mirrors (argv : List Str) (sinks : Sinks) (piped : Option Str) (isLast : Bool)
    (t : Shell) (before : List Capture) (trace : List Event) :
    Mirrors (Like before) (runStage host below argv sinks piped isLast) (t.under before trace)
      (runStage host below argv sinks piped isLast) t := by
  rw [runStage]
  simp only [Mirrors.modify_bind]
  set u := Shell.log _ (.ran t.nesting argv piped)
  refine (dispatch_mirrors hb hhost argv u before _).bind ?_
  rintro result _ v ⟨trace', rfl⟩
  simp only [Mirrors.get_bind, Mirrors.set_bind]
  exact .pure ⟨_, rfl⟩

theorem stagesLoop_mirrors (piped : Option Str) (stderr : Str) (last : Option CommandResult)
    (stages : List Str) (t : Shell) (before : List Capture) (trace : List Event) :
    Mirrors (Like before) (stagesLoop host below piped stderr last stages) (t.under before trace)
      (stagesLoop host below piped stderr last stages) t := by
  induction stages generalizing piped stderr last t trace with
  | nil =>
    cases last with
    | some result => exact .pure like_under
    | none => exact .ite (fun _ ↦ .pure like_under) fun _ ↦ .pure like_under
  | cons stage stages ih =>
    rw [stagesLoop]
    split
    · exact .pure like_under
    · refine (parseLine_mirrors hb _ t before trace).bind ?_
      rintro argv _ u ⟨trace', rfl⟩
      refine (openRedirects_mirrors hb _ _ u before trace').bind ?_
      rintro opened _ v ⟨trace'', rfl⟩
      split
      · exact .pure ⟨_, rfl⟩
      · simp only [takeSubstStderr, Mirrors.get_bind, Mirrors.set_bind, bind_assoc, pure_bind,
          Shell.under_substStderr]
        refine .ite (fun _ ↦ ih _ _ _ { v with substStderr := [] } trace'') fun _ ↦ ?_
        refine (runStage_mirrors hb hhost argv _ piped stages.isEmpty
          { v with substStderr := [] } before trace'').bind ?_
        rintro result _ w ⟨trace₃, rfl⟩
        exact ih _ _ _ w trace₃

theorem runPipeline_mirrors (segment : Str) (t : Shell) (before : List Capture)
    (trace : List Event) :
    Mirrors (Like before) (runPipeline host below segment) (t.under before trace)
      (runPipeline host below segment) t := by
  rw [runPipeline, Mirrors.get_bind]
  simp only [Mirrors.set_bind]
  exact stagesLoop_mirrors hb hhost _ _ _ _
    ((t.withHeredoc none).log (.pipeline t.nesting t.heredocStdin)) before _

theorem segmentsLoop_mirrors (out : Output) (status : ℤ) (ran : Bool) (segments : List Segment)
    (t : Shell) (before : List Capture) (trace : List Event) :
    Mirrors (Like before) (segmentsLoop host below out status ran segments)
      (t.under before trace) (segmentsLoop host below out status ran segments) t := by
  induction segments generalizing out status ran t trace with
  | nil => exact .pure like_under
  | cons segment segments ih =>
    rw [segmentsLoop]
    refine .ite (fun _ ↦ .ite (fun _ ↦ .pure like_under) fun _ ↦ ih _ _ _ t trace) fun _ ↦
      .ite (fun _ ↦ ih _ _ _ t trace) fun _ ↦ ?_
    refine (runPipeline_mirrors hb hhost segment.text t before trace).bind ?_
    rintro result _ v ⟨trace', rfl⟩
    split
    · exact ih _ _ _ v trace'
    · rename_i result
      rw [Mirrors.modify_bind]
      exact .ite (fun _ ↦ .pure ⟨_, rfl⟩) fun _ ↦ .ite (fun _ ↦ .pure ⟨_, rfl⟩) fun _ ↦
        ih _ _ _ { v with lastStatus := result.status } trace'

/-- A command line clears the captures first, so it comes to the same ones. -/
theorem execute_mirrors (line : Str) (t : Shell) (before : List Capture) (trace : List Event) :
    Mirrors (Like []) (execute host below line) (t.under before trace) (execute host below line)
      t := by
  rw [execute, Mirrors.modify_bind, Mirrors.get_bind]
  have hsegments : ∀ t : Shell, Mirrors (Like [])
      (segmentsLoop host below .empty 0 false (splitSegments (stripComment line)))
      (t.under [] trace)
      (segmentsLoop host below .empty 0 false (splitSegments (stripComment line))) t :=
    fun t ↦ segmentsLoop_mirrors hb hhost _ _ _ _ t [] trace
  refine .ite (fun _ ↦ ?_) fun _ ↦ hsegments (t.withCaptures [])
  rw [Mirrors.set_bind]
  split
  · rw [Mirrors.modify_bind]
    exact .pure ⟨trace, rfl⟩
  · exact hsegments { t.withCaptures [] with
      substBudget := maxCommandOutputBytes, substStderr := [] }

end Functions

/-- **No level reads the captures or the log.** -/
theorem level_oblivious {host : Host} (hhost : host.Blind) (n : ℕ) : (level host n).Oblivious := by
  induction n with
  | zero =>
    exact {
      execute := fun _ _ _ _ ↦ .stop
      expand := fun _ _ _ _ ↦ .stop
      dispatch := fun _ _ _ _ ↦ .stop }
  | succ n ih =>
    exact {
      execute := execute_mirrors ih hhost
      expand := expandWith_mirrors ih host
      dispatch := dispatch_mirrors ih hhost }

end Interp

end Mimic
