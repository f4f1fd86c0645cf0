import Mimic.Foundation.Kept
import Mimic.Shell.Evidence

/-!
# Invariants of the interpreter

What the interpreter does to the log of a session and to its user comes down to a few steps
(`Invariant`). A relation between sessions that contains these steps contains every run of every
function, at every level: most of what the functions do changes neither, and is one step, `quiet`.

Two steps are around other runs. `sudo` lends the ids of root to a command and puts the old ones
back. A script runs its lines one after the other (`Lines`).
-/

namespace Mimic

namespace Interp

open Mimic.Parser Outcomes

/-- What an invariant may speak of. -/
def Shell.watched (s : Shell) : List Event × Str × UInt32 × UInt32 :=
  (s.trace, s.username, s.uid, s.gid)

/-- The session as another user. -/
def Shell.asUser (s : Shell) (username : Str) (uid gid : UInt32) : Shell :=
  { s with username := username, uid := uid, gid := gid }

/-- Whether a line of a script is run. -/
def isScriptCommand (line : Str) : Prop :=
  ¬ (Text.trim line = [] ∨ (Text.trim line).head? = some '#')

instance (line : Str) : Decidable (isScriptCommand line) :=
  inferInstanceAs (Decidable (¬ _))

/-- The run of a script from some of its lines on to a later point: each line keeps `R`, from where
it is entered in the log. -/
inductive Lines (R : Shell → Shell → Prop) : List Str → List Str → Shell → Shell → Prop
  | done {lines : List Str} {s : Shell} : Lines R lines lines s s
  | skip {line : Str} {lines rest : List Str} {s t : Shell} (hline : ¬ isScriptCommand line)
    (h : Lines R lines rest s t) : Lines R (line :: lines) rest s t
  | run {line : Str} {lines rest : List Str} {s t u : Shell} (hline : isScriptCommand line)
    (h : R (s.log (.scriptLine (Text.trim line))) t) (h' : Lines R lines rest t u) :
    Lines R (line :: lines) rest s u

/-- `R` contains the steps of the interpreter, and `S` goes on from it where runs stop. -/
structure Invariant (host : Host) (S R : Shell → Shell → Prop) : Prop extends Ends S R where
  quiet : ∀ {s t : Shell}, t.watched = s.watched → R s t
  log : ∀ (s : Shell) (e : Event), e.isMark = false → R s (s.log e)
  apply : ∀ (cmd : Str) (args : List Str) (s : Shell), R s (s.apply (host.command cmd args s))
  switchUser : ∀ (user : Str) (s : Shell), R s (switchUser host.now user s)
  /-- A subshell ends, and its session is that of the old user. -/
  rejoin : ∀ {s t : Shell}, R s t → R s (t.asUser s.username s.uid s.gid)
  /-- The command of `sudo` ends. -/
  elevated : ∀ {s t : Shell}, R (s.asUser s.username 0 0) t →
    R s ((t.asUser t.username s.uid s.gid).log (.elevated s.username t.username))
  /-- The command of `sudo` stops. -/
  elevatedStops : ∀ {s t : Shell}, S (s.asUser s.username 0 0) t → S s t
  /-- A script ends. -/
  script : ∀ {lines : List Str} {s t : Shell}, lines.length ≤ maxScriptLines →
    Lines R lines [] (s.log (.script lines)) t → R s t
  /-- A script is left behind one of its lines. -/
  left : ∀ {lines rest : List Str} {line : Str} {s t u : Shell}, lines.length ≤ maxScriptLines →
    Lines R lines (line :: rest) (s.log (.script lines)) t → isScriptCommand line →
    R (t.log (.scriptLine (Text.trim line))) u → R s (u.log (.left rest))
  /-- A script stops in one of its lines. -/
  scriptStops : ∀ {lines rest : List Str} {line : Str} {s t u : Shell},
    lines.length ≤ maxScriptLines → Lines R lines (line :: rest) (s.log (.script lines)) t →
    isScriptCommand line → S (t.log (.scriptLine (Text.trim line))) u → S s u

namespace Lines

variable {R : Shell → Shell → Prop} {lines rest rest' : List Str} {s t u : Shell}

theorem trans (h : Lines R lines rest s t) (h' : Lines R rest rest' t u) :
    Lines R lines rest' s u := by
  induction h with
  | done => exact h'
  | skip hline _ ih => exact .skip hline (ih h')
  | run hline hrun _ ih => exact .run hline hrun (ih h')

end Lines

namespace Invariant

variable {host : Host} {S R : Shell → Shell → Prop} {s₀ s t : Shell} (hi : Invariant host S R)

include hi

theorem thenQuiet (h : R s₀ s) (hq : t.watched = s.watched) : R s₀ t := hi.trans h (hi.quiet hq)

theorem thenLog (h : R s₀ s) {e : Event} (he : e.isMark = false) : R s₀ (s.log e) :=
  hi.trans h (hi.log s e he)

theorem thenDepth (h : R s₀ s) (nesting substDepth : ℕ) : R s₀ (s.atDepth nesting substDepth) :=
  hi.thenLog (e := .nested nesting substDepth)
    (hi.thenQuiet (t := { s with nesting := nesting, substDepth := substDepth }) h rfl) rfl

theorem after {α : Type} {m : Run α} (h : R s₀ t) (hm : Keeps S R t m s) : Keeps S R s₀ m s :=
  Keeps.after hi.toEnds h hm


end Invariant

/-- The functions of a level keep the relation. -/
structure Level.Keep (below : Level) (S R : Shell → Shell → Prop) : Prop where
  execute : ∀ line s, Keeps S R s (below.execute line) s
  expand : ∀ line s, Keeps S R s (below.expand line) s
  dispatch : ∀ argv s, Keeps S R s (below.dispatch argv) s

section Functions

variable {host : Host} {below : Level} {S R : Shell → Shell → Prop} (hi : Invariant host S R)
  (hb : below.Keep S R)

include hi hb

/-! ### Expansion and redirects -/

theorem substitute_keeps (body : Str) (s : Shell) : Keeps S R s (substitute below body) s := by
  rw [substitute, Keeps.get_bind]
  split
  · exact .pure (hi.refl s)
  · simp only [enter, Keeps.modify_bind]
    have hsub := hi.thenQuiet
      (t := (s.atDepth (s.nesting + 1) (s.substDepth + 1)).withCaptures [])
      (hi.thenDepth (hi.refl s) (s.nesting + 1) (s.substDepth + 1)) rfl
    refine (hi.after hsub (hb.execute body _)).bind fun output v h ↦ ?_
    have hrestore : R s (v.restore s) := hi.thenQuiet (hi.rejoin h) rfl
    simp only [Keeps.modify_bind, Keeps.get_bind]
    set value := Text.takeBytes _ (spliceText output)
    set w := (v.restore s).atDepth _ _
    have hw : R s w := hi.thenDepth hrestore _ _
    exact .pure (hi.thenLog (e := .spliced (Text.byteLen value)) (hi.thenQuiet (t := { w with
      substStderr := truncateStream (w.substStderr ++ output.stderr) maxCommandOutputBytes
      substBudget := w.substBudget - Text.byteLen value }) hw rfl) rfl)

theorem arithmetic_keeps (body : Str) (s : Shell) :
    Keeps S R s (arithmetic host below body) s := by
  rw [arithmetic, Keeps.get_bind]
  split
  · exact .pure (hi.refl s)
  · simp only [enter, Keeps.modify_bind]
    refine (hi.after (hi.thenDepth (hi.refl s) _ _) (hb.expand body _)).bind fun expanded v h ↦ ?_
    simp only [Keeps.get_bind, Keeps.modify_bind]
    exact .pure (hi.thenDepth h _ _)

theorem regionValue_keeps (region : Substitution) (s : Shell) :
    Keeps S R s (regionValue host below region) s := by
  rw [regionValue]
  split
  · exact .stop (hi.stops (hi.refl s))
  · split
    · exact arithmetic_keeps hi hb _ s
    · exact substitute_keeps hi hb _ s

theorem expandLoop_keeps (mode : Expansion) (skip : ℕ) (inSingle inDouble : Bool) (text : Str)
    (s : Shell) : Keeps S R s (expandLoop host below mode skip inSingle inDouble text) s := by
  fun_induction expandLoop host below mode skip inSingle inDouble text generalizing s
  case case1 => exact .pure (hi.refl s)
  case case2 ih => exact ih s
  case case3 ih =>
    refine (regionValue_keeps hi hb _ s).bind fun value t h ↦ ?_
    exact (hi.after h (ih t)).bind fun _ _ h ↦ .pure h
  case case4 => exact .pure (hi.refl s)
  -- the other cases put a text in front of what comes out of the rest of the line
  all_goals
    rename_i ih
    exact (ih s).bind fun _ _ h ↦ .pure h

theorem expandWith_keeps (line : Str) (mode : Expansion) (s : Shell) :
    Keeps S R s (expandWith host below line mode) s :=
  expandLoop_keeps hi hb mode 0 false false line s

theorem parseLine_keeps (line : Str) (s : Shell) : Keeps S R s (parseLine host below line) s :=
  (expandWith_keeps hi hb line .words s).bind fun _ _ h ↦ .pure h

theorem openRedirects_keeps (sinks : Sinks) (redirects : List Redirect) (s : Shell) :
    Keeps S R s (openRedirects host below sinks redirects) s := by
  induction redirects generalizing sinks s with
  | nil => exact .pure (hi.refl s)
  | cons redirect redirects ih =>
    rw [openRedirects]
    split
    · rename_i path append _
      refine (parseLine_keeps hi hb path s).bind fun words t h ↦ ?_
      split
      · rename_i word
        simp only [Keeps.get_bind, Keeps.set_bind]
        have h' := hi.thenQuiet (t := { t with vfs := (openRedirect host.now t word append).1 }) h
          rfl
        split
        · exact .pure h'
        · exact hi.after h' (ih _ _)
      · exact .pure h
    · split
      · exact ih _ s
      · exact ih _ s

/-! ### Commands -/

/-- A script that has come to some of its lines. -/
theorem scriptLoop_keeps {all : List Str} {s₀ : Shell} (collected : List Capture) (out errs : Str)
    (status : ℤ) (lines : List Str) (s : Shell) (hall : all.length ≤ maxScriptLines)
    (h : Lines R all lines (s₀.log (.script all)) s) :
    Keeps S R s₀ (scriptLoop below collected out errs status lines) s := by
  induction lines generalizing collected out errs status s with
  | nil =>
    rw [scriptLoop, Keeps.modify_bind]
    exact .pure (hi.thenQuiet (hi.script hall h) rfl)
  | cons line lines ih =>
    rw [scriptLoop]
    split
    · rename_i hskip
      exact ih _ _ _ _ s (h.trans (.skip (not_not_intro hskip) .done))
    · rename_i hline
      rw [Keeps.modify_bind]
      refine Keeps.inner (hb.execute (Text.trim line) (s.log (.scriptLine (Text.trim line))))
        (fun u hu ↦ hi.scriptStops hall h hline hu) fun result t ht ↦ ?_
      simp only [Keeps.get_bind, Keeps.set_bind]
      have ht' := hi.thenLog (e := .captured (.scriptCommand (Text.trim line) result.status))
        (hi.thenQuiet (t := t.withCaptures []) ht rfl) rfl
      split
      · rw [Keeps.modify_bind]
        exact .pure (hi.thenQuiet (hi.left hall h hline ht') rfl)
      · exact ih _ _ _ _ _ (h.trans (.run hline ht' .done))

theorem runScript_keeps (text : Str) (s : Shell) : Keeps S R s (runScript below text) s :=
  hi.after (t := s.withCaptures []) (hi.quiet rfl)
    (scriptLoop_keeps hi hb s.captures [] [] 0 _ _ (List.length_take_le _ _) .done)

theorem shellCmd_keeps (args : List Str) (s : Shell) :
    Keeps S R s (shellCmd host below args) s := by
  induction args with
  | nil =>
    rw [shellCmd, Keeps.get_bind]
    split
    · split
      · exact .pure (hi.refl s)
      · exact runScript_keeps hi hb _ s
    · exact .pure (hi.refl s)
  | cons arg args ih =>
    rw [shellCmd.eq_def]
    simp only
    split
    · split
      · exact .pure (hi.refl s)
      · refine (hb.expand _ s).bind fun expanded t h ↦ ?_
        split
        · exact .pure h
        · exact hi.after h (hb.dispatch _ t)
    · split
      · exact ih
      · rw [Keeps.get_bind]
        split
        · exact .pure (hi.refl s)
        · split
          · exact .pure (hi.refl s)
          · exact runScript_keeps hi hb _ s

theorem scp_keeps (args : List Str) (s : Shell) : Keeps S R s (scp below args) s := by
  simp only [scp]
  split
  · exact .pure (hi.refl s)
  · split
    · exact .pure (hi.refl s)
    · exact hb.dispatch _ s

theorem sudoCmd_keeps (args : List Str) (s : Shell) :
    Keeps S R s (sudoCmd host below args) s := by
  rw [sudoCmd, Keeps.get_bind]
  split
  · exact .pure (hi.refl s)
  · split
    · rw [Keeps.set_bind]
      have hroot := hi.switchUser "root".toList s
      split
      · exact .pure (hi.thenQuiet hroot rfl)
      · exact .pure hroot
    · exact .pure (hi.refl s)
  · rw [Keeps.set_bind]
    refine Keeps.inner (hb.dispatch _ (s.asUser s.username 0 0)) (fun u hu ↦ hi.elevatedStops hu)
      fun result t ht ↦ ?_
    rw [Keeps.modify_bind]
    exact .pure (hi.elevated ht)

theorem nohup_keeps (args : List Str) (s : Shell) : Keeps S R s (nohup below args) s := by
  rw [nohup]
  split
  · exact .pure (hi.refl s)
  · exact (hb.dispatch _ s).bind fun _ _ h ↦ .pure h

theorem xargsLoop_keeps (command : List Str) (out errs : Str) (status : ℤ)
    (groups : List (List Str)) (s : Shell) :
    Keeps S R s (xargsLoop below command out errs status groups) s := by
  induction groups generalizing out errs status s with
  | nil => exact .pure (hi.refl s)
  | cons group groups ih =>
    refine (hb.dispatch _ s).bind fun result t h ↦ ?_
    simp only
    split
    · exact .pure h
    · exact hi.after h (ih _ _ _ t)

theorem xargs_keeps (args : List Str) (s : Shell) : Keeps S R s (xargs below args) s := by
  rw [xargs, Keeps.get_bind]
  simp only
  split
  · exact .pure (hi.refl s)
  · exact xargsLoop_keeps hi hb _ _ _ _ _ s

omit hb in
theorem history_keeps (args : List Str) (s : Shell) : Keeps S R s (history args) s := by
  rw [history, Keeps.get_bind]
  split
  · rw [Keeps.set_bind]
    have hcleared := hi.quiet (s := s) (t := { s with history := [] }) rfl
    exact .pure (hi.thenLog (e := .cleared) hcleared rfl)
  · exact .pure (hi.refl s)

omit hb in
theorem leaf_keeps (cmd : Str) (args : List Str) (s : Shell) :
    Keeps S R s (leaf host cmd args) s := by
  rw [leaf, Keeps.get_bind]
  simp only [Keeps.set_bind]
  exact .pure (hi.apply cmd args s)

theorem handler_keeps (cmd : Str) (args : List Str) (s : Shell) (run : Run CommandResult)
    (hrun : handler host below cmd args = some run) : Keeps S R s run s := by
  simp only [handler] at hrun
  split_ifs at hrun <;> cases hrun
  · exact sudoCmd_keeps hi hb args s
  · exact shellCmd_keeps hi hb args s
  · exact scp_keeps hi hb args s
  · exact xargs_keeps hi hb args s
  · exact nohup_keeps hi hb args s
  · exact history_keeps hi args s
  · exact leaf_keeps hi cmd args s

theorem dispatchInner_keeps (argv : List Str) (s : Shell) :
    Keeps S R s (dispatchInner host below argv) s := by
  cases argv with
  | nil => exact .stop (hi.stops (hi.refl s))
  | cons cmd args =>
    rw [dispatchInner]
    split
    · exact .pure (hi.refl s)
    split
    · exact .pure (hi.refl s)
    split
    · rw [Keeps.get_bind]
      exact .pure (hi.refl s)
    split
    · rename_i run hrun
      exact (handler_keeps hi hb cmd args s run hrun).map
    · split
      · exact .pure (hi.refl s)
      · exact .pure (hi.refl s)

theorem dispatch_keeps (argv : List Str) (s : Shell) :
    Keeps S R s (dispatch host below argv) s := by
  rw [dispatch, Keeps.get_bind]
  split
  · exact .pure (hi.refl s)
  · simp only [enter, Keeps.modify_bind]
    refine (hi.after (hi.thenDepth (hi.refl s) _ _) (dispatchInner_keeps hi hb argv _)).bind
      fun result t h ↦ ?_
    simp only [Keeps.modify_bind, Keeps.get_bind]
    exact .pure (hi.thenDepth h _ _)

/-! ### Pipelines and lines -/

theorem runStage_keeps (argv : List Str) (sinks : Sinks) (piped : Option Str) (isLast : Bool)
    (s : Shell) : Keeps S R s (runStage host below argv sinks piped isLast) s := by
  rw [runStage]
  simp only [Keeps.modify_bind]
  have hran := hi.thenLog (e := .ran s.nesting argv piped)
    (hi.quiet (s := s) (t := { s with
      stdin := piped
      stdoutIsTty := isLast && sinks.stdout.isNone && s.substDepth == 0 }) rfl) rfl
  refine (hi.after hran (dispatch_keeps hi hb argv _)).bind fun result t h ↦ ?_
  simp only [Keeps.get_bind, Keeps.set_bind]
  exact .pure (hi.thenLog (e := .piped t.nesting _) (hi.thenQuiet (t := { t with
    stdin := none, stdoutIsTty := true
    vfs := (routeOutput host.now t.vfs result sinks).1 }) h rfl) rfl)

theorem stagesLoop_keeps (piped : Option Str) (stderr : Str) (last : Option CommandResult)
    (stages : List Str) (s : Shell) :
    Keeps S R s (stagesLoop host below piped stderr last stages) s := by
  induction stages generalizing piped stderr last s with
  | nil =>
    cases last with
    | some result => exact .pure (hi.refl s)
    | none =>
      rw [stagesLoop]
      split
      · exact .pure (hi.refl s)
      · exact .pure (hi.refl s)
  | cons stage stages ih =>
    rw [stagesLoop]
    split
    · exact .pure (hi.refl s)
    · refine (parseLine_keeps hi hb _ s).bind fun argv t ht ↦ ?_
      refine (hi.after ht (openRedirects_keeps hi hb _ _ t)).bind fun opened u hu ↦ ?_
      split
      · exact .pure hu
      · simp only [takeSubstStderr, Keeps.get_bind, Keeps.set_bind, bind_assoc, pure_bind]
        have hu' := hi.thenQuiet (t := { u with substStderr := [] }) hu rfl
        split
        · exact hi.after hu' (ih _ _ _ _)
        · refine (hi.after hu' (runStage_keeps hi hb argv _ piped stages.isEmpty _)).bind
            fun result v hv ↦ ?_
          exact hi.after hv (ih _ _ _ v)

theorem runPipeline_keeps (segment : Str) (s : Shell) :
    Keeps S R s (runPipeline host below segment) s := by
  rw [runPipeline, Keeps.get_bind]
  simp only [Keeps.set_bind]
  have hbegun := hi.thenLog (e := .pipeline s.nesting s.heredocStdin)
    (hi.quiet (s := s) (t := s.withHeredoc none) rfl) rfl
  exact hi.after hbegun (stagesLoop_keeps hi hb _ _ _ _ _)

theorem segmentsLoop_keeps (out : Output) (status : ℤ) (ran : Bool) (segments : List Segment)
    (s : Shell) : Keeps S R s (segmentsLoop host below out status ran segments) s := by
  induction segments generalizing out status ran s with
  | nil => exact .pure (hi.refl s)
  | cons segment segments ih =>
    rw [segmentsLoop]
    split
    · split
      · exact .pure (hi.refl s)
      · exact ih _ _ _ s
    split
    · exact ih _ _ _ s
    refine (runPipeline_keeps hi hb segment.text s).bind fun result t h ↦ ?_
    split
    · exact hi.after h (ih _ _ _ t)
    · rename_i result
      rw [Keeps.modify_bind]
      have h' := hi.thenQuiet (t := { t with lastStatus := result.status }) h rfl
      simp only
      split
      · exact .pure h'
      split
      · exact .pure h'
      · exact hi.after h' (ih _ _ _ _)

theorem execute_keeps (line : Str) (s : Shell) : Keeps S R s (execute host below line) s := by
  rw [execute, Keeps.modify_bind, Keeps.get_bind]
  split
  · rw [Keeps.set_bind]
    split
    · rw [Keeps.modify_bind]
      exact .pure (hi.quiet rfl)
    · refine hi.after (hi.quiet ?_) (segmentsLoop_keeps hi hb _ _ _ _ _)
      rfl
  · refine hi.after (hi.quiet ?_) (segmentsLoop_keeps hi hb _ _ _ _ _)
    rfl

end Functions

/-! ### All levels -/

section Levels

variable {host : Host} {S R : Shell → Shell → Prop} (hi : Invariant host S R)

include hi

theorem level_keep (n : ℕ) : (level host n).Keep S R := by
  induction n with
  | zero =>
    exact {
      execute := fun _ s ↦ .stop (hi.stops (hi.refl s))
      expand := fun _ s ↦ .stop (hi.stops (hi.refl s))
      dispatch := fun _ s ↦ .stop (hi.stops (hi.refl s)) }
  | succ n ih =>
    exact {
      execute := execute_keeps hi ih
      expand := fun line s ↦ expandWith_keeps hi ih line .words s
      dispatch := dispatch_keeps hi ih }

theorem expand_keeps (line : Str) (mode : Expansion) (s : Shell) :
    Keeps S R s (expandWith host (levels host) line mode) s :=
  expandWith_keeps hi (level_keep hi maxNestedCommands) line mode s

theorem line_keeps (line : Str) (s : Shell) :
    Keeps S R s (execute host (levels host) line) s :=
  execute_keeps hi (level_keep hi maxNestedCommands) line s

/-! ### Inputs -/

omit hi in
theorem watched_writeText (s : Shell) (path text : Str) :
    (writeText host s path text).watched = s.watched := by
  rw [writeText]
  split
  · rfl
  · split
    · rfl
    · split <;> rfl

theorem runHeredoc_keeps (command raw : Str) (doc : Heredoc) (body : Str) (s : Shell) :
    Keeps S R s (runHeredoc host command raw doc body) s := by
  rw [runHeredoc, Keeps.modify_bind]
  have htext : Keeps S R (s.closing raw doc body) (heredocText host doc body)
      (s.closing raw doc body) := by
    rw [heredocText]
    split
    · exact expand_keeps hi _ _ _
    · exact .pure (hi.refl _)
  have hclosing : R s (s.closing raw doc body) := hi.quiet rfl
  refine (hi.after hclosing htext).bind fun text t ht ↦ ?_
  rw [Keeps.modify_bind]
  have ht' : R s (t.withHeredoc (some text)) := hi.thenQuiet ht rfl
  refine (hi.after ht' (line_keeps hi command _)).bind fun out u hu ↦ ?_
  rw [Keeps.modify_bind]
  exact .pure (hi.thenQuiet hu rfl)

theorem resume_keeps (input : Str) (s : Shell) : Keeps S R s (resume host input) s := by
  rw [resume, Keeps.get_bind, Keeps.set_bind]
  have hset : R s (s.withPending none) := hi.quiet rfl
  split
  · rename_i target _
    rw [Keeps.modify_bind]
    have hpush := hi.thenLog (e := .captured (.suAuth target input)) (hi.thenQuiet
      (t := (s.withPending none).withCaptures (s.captures ++ [.suAuth target input])) hset rfl) rfl
    exact .pure (hi.trans hpush (hi.switchUser target _))
  · rw [Keeps.modify_bind]
    exact .pure (hi.thenQuiet hset rfl)
  · rename_i target first _
    split
    · exact .pure hset
    · rw [Keeps.modify_bind]
      have hpush := hi.thenLog (e := .captured (.passwordChange target first)) (hi.thenQuiet
        (t := (s.withPending none).withCaptures (s.captures ++ [.passwordChange target first]))
        hset rfl) rfl
      exact .pure (hi.thenQuiet hpush (watched_writeText _ _ _))
  · rename_i command raw doc body _
    simp only
    split
    · exact hi.after hset (runHeredoc_keeps hi command raw doc body _)
    · rw [Keeps.modify_bind]
      exact .pure (hi.thenQuiet hset rfl)
  · exact .pure hset

theorem finishHeredocAtEof_keeps (s : Shell) : Keeps S R s (finishHeredocAtEof host) s := by
  rw [finishHeredocAtEof, Keeps.get_bind, Keeps.set_bind]
  have hset : R s (s.withPending none) := hi.quiet rfl
  split
  · rename_i command raw doc body _
    refine (hi.after hset (runHeredoc_keeps hi command raw doc body _)).bind fun out t ht ↦ ?_
    exact .pure ht
  · exact .pure hset

/-- **Invariants.** A relation that contains the steps of the interpreter contains what it does with
every input. -/
theorem Invariant.process (input : Input) (s : Shell) : Keeps S R s (input.process host) s := by
  cases input with
  | line text => exact (line_keeps hi text s).map
  | answer text => exact (resume_keeps hi text s).map
  | eof => exact finishHeredocAtEof_keeps hi s

end Levels

end Interp

end Mimic
