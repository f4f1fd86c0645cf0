import Mimic.Shell.Words

/-!
# The stderr of a pipeline

A stage adds two pieces to the stderr of its pipeline: what its expansions left, and what its
command wrote past the redirects (`Written`). A redirect that is malformed or cannot be opened ends
the loop with its message alone: the pieces in front of it are dropped, and what the expansions left
stays with the session (`pipeline_stderr_iff`).
-/

namespace Mimic

namespace Interp

open Mimic.Parser Outcomes

/-! ### The record of a run -/

/-- What a stage adds, and what is held in front of it and behind it. -/
structure Written where
  before : Str
  /-- What is held when its redirects are open. -/
  held : Str
  /-- The stderr of its command that no redirect took, if it has a command. -/
  routed : Option Str
  after : Str

/-- How the stages end. -/
inductive StageStop
  | through
  /-- A redirect is refused, with what is held in front of its stage and then. -/
  | refused (before held message : Str)

section Stages

variable (host : Host) (below : Level)

/-- The stages of a pipeline that returns, with the record of each. -/
inductive Stages : Option Str → List Str → Shell → List Written → StageStop → Shell → Prop
  | done {piped : Option Str} {s : Shell} : Stages piped [] s [] .through s
  | malformed {piped : Option Str} {stage message : Str} {stages : List Str} {s : Shell}
    (hsplit : splitRedirects stage = .error message) :
    Stages piped (stage :: stages) s [] (.refused s.substStderr s.substStderr message) s
  | unopened {piped : Option Str} {stage text message : Str} {redirects : List Redirect}
    {stages argv : List Str} {s u v : Shell}
    (hsplit : splitRedirects stage = .ok (text, redirects))
    (hparse : parseLine host below text s = (.ok argv, u))
    (hopen : openRedirects host below .empty redirects u = (.ok (.error message), v)) :
    Stages piped (stage :: stages) s [] (.refused s.substStderr v.substStderr message) v
  | silent {piped : Option Str} {stage text : Str} {redirects : List Redirect}
    {stages : List Str} {sinks : Sinks} {records : List Written} {stop : StageStop}
    {s u v t : Shell} (hsplit : splitRedirects stage = .ok (text, redirects))
    (hparse : parseLine host below text s = (.ok [], u))
    (hopen : openRedirects host below .empty redirects u = (.ok (.ok sinks), v))
    (h : Stages piped stages { v with substStderr := [] } records stop t) :
    Stages piped (stage :: stages) s (⟨s.substStderr, v.substStderr, none, []⟩ :: records) stop t
  | ran {piped : Option Str} {stage text : Str} {redirects : List Redirect}
    {stages argv : List Str} {sinks : Sinks} {records : List Written} {stop : StageStop}
    {result : CommandResult} {s u v w t : Shell}
    (hsplit : splitRedirects stage = .ok (text, redirects))
    (hparse : parseLine host below text s = (.ok argv, u)) (hargv : argv ≠ [])
    (hopen : openRedirects host below .empty redirects u = (.ok (.ok sinks), v))
    (hrun : runStage host below argv sinks piped stages.isEmpty { v with substStderr := [] } =
      (.ok result, w))
    (h : Stages (some result.output) stages w records stop t) :
    Stages piped (stage :: stages) s
      (⟨s.substStderr, v.substStderr, some result.stderr, w.substStderr⟩ :: records) stop t

end Stages

/-- The pieces one behind the other, each capped with what is in front of it. -/
def gather (stderr : Str) (pieces : List Str) : Str :=
  pieces.foldl (fun acc piece ↦ truncateStream (acc ++ piece) maxCommandOutputBytes) stderr

/-- What a stage adds. -/
def Written.pieces (r : Written) : List Str := r.held :: r.routed.toList

namespace StageStop

/-- What is held in front of the stage that is refused. -/
def before : StageStop → Str
  | through => []
  | refused before _ _ => before

/-- What its expansions left. -/
def held : StageStop → Str
  | through => []
  | refused _ held _ => held

/-- The last piece, without a command behind it. -/
def pieces : StageStop → List Str
  | through => []
  | refused _ held _ => [held]

/-- The diagnostic. -/
def diagnostic : StageStop → Str
  | through => []
  | refused _ _ message => message

/-- The stderr that the pipeline returns. -/
def returned (stop : StageStop) (stderr : Str) (records : List Written) : Str :=
  match stop with
  | through => gather stderr (records.flatMap Written.pieces)
  | refused _ _ message => message

end StageStop

/-- The stderr of the result of a pipeline. -/
def resultStderr (result : Option CommandResult) : Str :=
  (result.map CommandResult.stderr).getD []

/-! ### Collecting -/

theorem gather_cons (stderr piece : Str) (pieces : List Str) : gather stderr (piece :: pieces) =
    gather (truncateStream (stderr ++ piece) maxCommandOutputBytes) pieces := rfl

/-- Under the cap, it is the concatenation. -/
theorem gather_of_le {pieces : List Str} {stderr : Str}
    (h : Text.byteLen (stderr ++ pieces.flatten) ≤ maxCommandOutputBytes) :
    gather stderr pieces = stderr ++ pieces.flatten := by
  induction pieces generalizing stderr with
  | nil => exact (List.append_nil stderr).symm
  | cons piece pieces ih =>
    rw [List.flatten_cons, ← List.append_assoc] at h ⊢
    have hle : Text.byteLen (stderr ++ piece) ≤ maxCommandOutputBytes := by
      rw [Text.byteLen_append] at h
      omega
    rw [gather_cons, truncateStream, if_pos hle]
    exact ih h

theorem gather_eq_nil {pieces : List Str} {stderr : Str} :
    gather stderr pieces = [] ↔ stderr = [] ∧ ∀ piece ∈ pieces, piece = [] := by
  induction pieces generalizing stderr with
  | nil => exact (and_iff_left nofun).symm
  | cons piece pieces ih =>
    rw [gather_cons, ih, truncateStream_eq_nil, List.append_eq_nil_iff, List.forall_mem_cons,
      and_assoc]

section Runs

variable {host : Host} {below : Level} {piped : Option Str} {stages : List Str} {stderr : Str}
  {last result : Option CommandResult} {s t : Shell} {records : List Written} {stop : StageStop}

/-- **The record of a pipeline**: it returns what it has gathered, or the diagnostic alone. -/
theorem exists_stages (h : stagesLoop host below piped stderr last stages s = (.ok result, t)) :
    ∃ records stop, Stages host below piped stages s records stop t ∧
      resultStderr result = stop.returned stderr records := by
  induction stages generalizing piped stderr last s with
  | nil =>
    refine ⟨[], .through, ?_⟩
    cases last with
    | some r =>
      obtain ⟨hresult, rfl⟩ := Prod.mk.inj h
      obtain rfl := Except.ok.inj hresult
      exact ⟨.done, rfl⟩
    | none =>
      rw [stagesLoop] at h
      split at h
      · rename_i hempty
        obtain ⟨hresult, rfl⟩ := Prod.mk.inj h
        obtain rfl := Except.ok.inj hresult
        exact ⟨.done, hempty.symm⟩
      · obtain ⟨hresult, rfl⟩ := Prod.mk.inj h
        obtain rfl := Except.ok.inj hresult
        exact ⟨.done, rfl⟩
  | cons stage stages ih =>
    rw [stagesLoop] at h
    rcases hsplit : splitRedirects stage with message | ⟨text, redirects⟩ <;> rw [hsplit] at h
    · obtain ⟨hresult, rfl⟩ := Prod.mk.inj h
      obtain rfl := Except.ok.inj hresult
      exact ⟨[], _, .malformed hsplit, rfl⟩
    obtain ⟨argv, u, hparse, hafter⟩ := bind_eq_ok h
    obtain ⟨opened, v, hopen, hopened⟩ := bind_eq_ok hafter
    cases opened with
    | error message =>
      obtain ⟨hresult, rfl⟩ := Prod.mk.inj hopened
      obtain rfl := Except.ok.inj hresult
      exact ⟨[], _, .unopened hsplit hparse hopen, rfl⟩
    | ok sinks =>
      change (if argv = [] then _ else _ : Run (Option CommandResult))
        { v with substStderr := [] } = _ at hopened
      split at hopened
      · rename_i hargv
        subst hargv
        obtain ⟨records, stop, hstages, hresult⟩ := ih hopened
        refine ⟨_, stop, .silent hsplit hparse hopen hstages, hresult.trans ?_⟩
        cases stop <;> rfl
      · rename_i hargv
        obtain ⟨r, w, hrun, hran⟩ := bind_eq_ok hopened
        obtain ⟨records, stop, hstages, hresult⟩ := ih hran
        refine ⟨_, stop, .ran hsplit hparse hargv hopen hrun hstages, hresult.trans ?_⟩
        cases stop <;> rfl

/-! ### Conservation -/

/-- The stderr of a pipeline is conserved: no text from elsewhere surfaces in one of its stages, the
result has every piece in its place and the diagnostic behind them, and nothing stays with the
session. -/
structure StderrConserved (records : List Written) (stop : StageStop)
    (result : Option CommandResult) (t : Shell) : Prop where
  own : (∀ r ∈ records, r.before = []) ∧ stop.before = []
  whole : resultStderr result =
    gather [] (records.flatMap Written.pieces ++ stop.pieces) ++ stop.diagnostic
  left : t.substStderr = []

/-- Nothing is held when the pipeline starts or behind one of its commands, and a redirect is
refused only where no stderr has come up. -/
structure StderrDrained (s : Shell) (records : List Written) (stop : StageStop) : Prop where
  entry : s.substStderr = []
  commands : ∀ r ∈ records, r.after = []
  expansions : stop.held = []
  refusal : stop ≠ .through → ∀ piece ∈ records.flatMap Written.pieces, piece = []

/-- What is held goes from stage to stage. -/
theorem Stages.held_iff (h : Stages host below piped stages s records stop t) :
    ((∀ r ∈ records, r.before = []) ∧ stop.before = []) ∧ t.substStderr = [] ↔
      s.substStderr = [] ∧ (∀ r ∈ records, r.after = []) ∧ stop.held = [] := by
  induction h with
  | done => simp [StageStop.before, StageStop.held]
  | malformed => simp [StageStop.before, StageStop.held]
  | unopened => simp [StageStop.before, StageStop.held]
  | silent _ _ _ _ ih =>
    simp only [List.forall_mem_cons] at ih ⊢
    tauto
  | ran _ _ _ _ _ _ ih =>
    simp only [List.forall_mem_cons]
    tauto

/-- **Stderr of a pipeline.** A pipeline that returns has a record by which its stderr is conserved
exactly if nothing is held around its commands and no redirect is refused behind other stderr. -/
theorem pipeline_stderr_iff {segment : Str}
    (h : runPipeline host below segment s = (.ok result, t)) :
    ∃ records stop, Stages host below s.heredocStdin (splitPipeline segment)
      ((s.withHeredoc none).log (.pipeline s.nesting s.heredocStdin)) records stop t ∧
      (StderrConserved records stop result t ↔ StderrDrained s records stop) := by
  obtain ⟨records, stop, hstages, hresult⟩ := exists_stages h
  refine ⟨records, stop, hstages, ?_⟩
  have hheld := hstages.held_iff
  constructor
  · rintro ⟨hown, hwhole, hleft⟩
    obtain ⟨hentry, hafter, hexpansions⟩ := hheld.mp ⟨hown, hleft⟩
    refine ⟨hentry, hafter, hexpansions, fun hstop ↦ ?_⟩
    cases stop with
    | through => exact absurd rfl hstop
    | refused before held message =>
      rw [hresult] at hwhole
      have hgather := List.self_eq_append_left.mp hwhole
      exact fun piece hpiece ↦ (gather_eq_nil.mp hgather).2 piece (List.mem_append_left _ hpiece)
  · rintro ⟨hentry, hafter, hexpansions, hrefusal⟩
    obtain ⟨hown, hleft⟩ := hheld.mpr ⟨hentry, hafter, hexpansions⟩
    refine ⟨hown, hresult.trans ?_, hleft⟩
    cases stop with
    | through =>
      simp only [StageStop.returned, StageStop.pieces, StageStop.diagnostic, List.append_nil]
    | refused before held message =>
      have hnone : gather [] (records.flatMap Written.pieces ++ [held]) = [] := by
        rw [gather_eq_nil, List.forall_mem_append, List.forall_mem_singleton]
        exact ⟨rfl, hrefusal nofun, hexpansions⟩
      exact (congrArg (· ++ message) hnone).symm

end Runs

theorem pipeline_stderr_nosuch : ∃ result t,
    runPipeline bareHost (levels bareHost) "nosuch".toList Shell.bare = (.ok result, t) ∧
      ∃ records stop, Stages bareHost (levels bareHost) Shell.bare.heredocStdin
        (splitPipeline "nosuch".toList)
        ((Shell.bare.withHeredoc none).log
          (.pipeline Shell.bare.nesting Shell.bare.heredocStdin)) records stop t ∧
        (StderrConserved records stop result t ↔ StderrDrained Shell.bare records stop) := by
  obtain ⟨result, t, hx, -⟩ := returns_of_any
    (m := runPipeline bareHost (levels bareHost) "nosuch".toList) (s := Shell.bare)
    (p := fun _ _ ↦ true) (by decide +kernel)
  exact ⟨result, t, hx, pipeline_stderr_iff hx⟩

/-- The error of a substitution stays with the session, and that of an earlier stage is lost. -/
theorem pipeline_stderr_lost :
    (∃ result t, runPipeline bareHost (levels bareHost) "true $(nosuch) > /no/x".toList
        Shell.bare = (.ok result, t) ∧
      resultStderr result = "-bash: /no/x: No such file or directory\n".toList ∧
      t.substStderr = "-bash: nosuch: command not found\n".toList ∧
      ∀ records stop, ¬ StderrConserved records stop result t) ∧
    (∃ result t, runPipeline bareHost (levels bareHost) "nosuch".toList Shell.bare =
        (.ok result, t) ∧
      resultStderr result = "-bash: nosuch: command not found\n".toList) ∧
    ∃ result t, runPipeline bareHost (levels bareHost) "nosuch | true > /no/x".toList
        Shell.bare = (.ok result, t) ∧
      resultStderr result = "-bash: /no/x: No such file or directory\n".toList := by
  refine ⟨?_, ?_, ?_⟩
  · obtain ⟨result, t, hx, hp⟩ := returns_of_any
      (m := runPipeline bareHost (levels bareHost) "true $(nosuch) > /no/x".toList)
      (s := Shell.bare) (p := fun result t ↦
        resultStderr result = "-bash: /no/x: No such file or directory\n".toList ∧
        t.substStderr = "-bash: nosuch: command not found\n".toList) (by decide +kernel)
    obtain ⟨hresult, ht⟩ := of_decide_eq_true hp
    refine ⟨result, t, hx, hresult, ht, fun records stop h ↦ ?_⟩
    exact absurd (ht.symm.trans h.left) (by decide)
  · obtain ⟨result, t, hx, hp⟩ := returns_of_any
      (m := runPipeline bareHost (levels bareHost) "nosuch".toList) (s := Shell.bare)
      (p := fun result _ ↦
        resultStderr result = "-bash: nosuch: command not found\n".toList) (by decide +kernel)
    exact ⟨result, t, hx, of_decide_eq_true hp⟩
  · obtain ⟨result, t, hx, hp⟩ := returns_of_any
      (m := runPipeline bareHost (levels bareHost) "nosuch | true > /no/x".toList)
      (s := Shell.bare) (p := fun result _ ↦
        resultStderr result = "-bash: /no/x: No such file or directory\n".toList)
      (by decide +kernel)
    exact ⟨result, t, hx, of_decide_eq_true hp⟩

end Interp

end Mimic
