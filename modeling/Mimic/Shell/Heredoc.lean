import Mimic.Shell.Balance

/-!
# Here-documents

A line with a here-document operator is parked, the lines that follow are collected, and at the
delimiter the line is run with the text collected. The text waits in the session until a pipeline
takes it: the first one that the line runs, whichever one the operator was in.
-/

namespace Mimic

namespace Interp

open Mimic.Parser Outcomes

/-! ### Closing a here-document -/

/-- `runHeredoc` runs the command line once, with the text waiting. -/
theorem runHeredoc_eq (host : Host) (command raw : Str) (doc : Heredoc) (body : Str) (s : Shell) :
    runHeredoc host command raw doc body s =
      match heredocText host doc body (s.closing raw doc body) with
      | (.error e, u) => (.error e, u)
      | (.ok text, u) =>
        match execute host (levels host) command (u.withHeredoc (some text)) with
        | (.error e, v) => (.error e, v)
        | (.ok out, v) => (.ok out, v.withHeredoc none) := by
  rw [runHeredoc, bind_apply]
  show (heredocText host doc body >>= _ : Run Output) (s.closing raw doc body) = _
  rw [bind_apply]
  rcases heredocText host doc body (s.closing raw doc body) with ⟨e | text, u⟩
  · rfl
  · show (execute host (levels host) command >>= _ : Run Output) (u.withHeredoc (some text)) = _
    rw [bind_apply]
    dsimp only
    rcases execute host (levels host) command (u.withHeredoc (some text)) with ⟨e | out, v⟩ <;>
      rfl

theorem heredocText_runs (host : Host) (doc : Heredoc) (body : Str) (s : Shell) :
    Runs (s.nesting + 1) s (heredocText host doc body) s := by
  rw [heredocText]
  split
  · exact expandWith_runs (levels_lawful host s.nesting) body .literal s rfl
  · exact .pure .refl

/-! ### Collecting a body -/

/-- Answer a prompt with one line after the other. -/
def resumeAll (host : Host) : List Str → Run (List Output)
  | [] => return []
  | line :: lines => do
    let out ← resume host line
    let outs ← resumeAll host lines
    return out :: outs

/-- The lines of a body as they count, each with its newline. -/
def bodyText (doc : Heredoc) (lines : List Str) : Str :=
  (lines.map fun line ↦ Heredoc.line doc line ++ ['\n']).flatten

@[simp] theorem bodyText_nil (doc : Heredoc) : bodyText doc [] = [] := rfl

@[simp] theorem bodyText_cons (doc : Heredoc) (line : Str) (lines : List Str) :
    bodyText doc (line :: lines) = Heredoc.line doc line ++ ['\n'] ++ bodyText doc lines := by
  simp [bodyText]

theorem truncateStream_of_le {text : Str} {budget : ℕ} (h : Text.byteLen text ≤ budget) :
    truncateStream text budget = text := if_pos h

/-- The session that waits for more of a body. -/
def Shell.parked (s : Shell) (line command : Str) (doc : Heredoc) (body : Str) : Shell :=
  { s.begun with substStderr := [], pending := some (.heredoc command line doc body) }

section Collect

variable {host : Host} {s : Shell} {command raw body line : Str} {doc : Heredoc}

theorem resume_line (hpending : s.pending = some (.heredoc command raw doc body))
    (hline : Heredoc.line doc line ≠ doc.delimiter) :
    resume host line s = (.ok .empty, s.withPending (some (.heredoc command raw doc
      (truncateStream (body ++ Heredoc.line doc line ++ ['\n']) maxCommandOutputBytes)))) := by
  rw [resume, bind_apply]
  show (set (s.withPending none) >>= _ : Run Output) s = _
  rw [bind_apply]
  simp only [hpending]
  rw [if_neg hline]
  rfl

theorem resume_delimiter (hpending : s.pending = some (.heredoc command raw doc body))
    (hline : Heredoc.line doc line = doc.delimiter) :
    resume host line s = runHeredoc host command raw doc body (s.withPending none) := by
  rw [resume, bind_apply]
  show (set (s.withPending none) >>= _ : Run Output) s = _
  rw [bind_apply]
  simp only [hpending]
  rw [if_pos hline]
  rfl

/-- The lines of a body change nothing but the body. -/
theorem resumeAll_body (lines : List Str)
    (hpending : s.pending = some (.heredoc command raw doc body))
    (hlines : ∀ line ∈ lines, Heredoc.line doc line ≠ doc.delimiter)
    (hcap : Text.byteLen (body ++ bodyText doc lines) ≤ maxCommandOutputBytes) :
    resumeAll host lines s = (.ok (List.replicate lines.length .empty), s.withPending
      (some (.heredoc command raw doc (body ++ bodyText doc lines)))) := by
  induction lines generalizing s body with
  | nil =>
    rw [bodyText_nil, List.append_nil, ← hpending]
    rfl
  | cons line lines ih =>
    have hassoc : body ++ bodyText doc (line :: lines) =
        body ++ Heredoc.line doc line ++ ['\n'] ++ bodyText doc lines := by simp
    rw [hassoc] at hcap ⊢
    have hprefix : Text.byteLen (body ++ Heredoc.line doc line ++ ['\n']) ≤
        maxCommandOutputBytes := by
      rw [Text.byteLen_append] at hcap
      exact Nat.le_of_add_right_le hcap
    have hrest := ih (s := s.withPending _) rfl
      (fun l hl ↦ hlines l (List.mem_cons_of_mem line hl)) hcap
    rw [resumeAll, bind_apply, resume_line hpending (hlines line List.mem_cons_self),
      truncateStream_of_le hprefix]
    show (resumeAll host lines >>= _ : Run (List Output)) _ = _
    rw [bind_apply, hrest]
    rfl

/-- A line with an operator is parked. -/
theorem execute_parks (below : Level) (hs : s.nesting = 0)
    (hline : splitHeredoc (stripComment line) = some (doc, command)) :
    execute host below line s = (.ok .empty, s.parked line command doc []) := by
  rw [execute, bind_apply]
  show (if s.nesting = 0 then _ else _ : Run Output) (s.withCaptures []) = _
  rw [if_pos hs, bind_apply, hline, Shell.parked, Shell.begun, if_pos hs]
  rfl

end Collect

/-! ### The first pipeline -/

section First

variable {host : Host} {below : Level} {k : ℕ} {T : List Event}
  (hb : k < maxNestedCommands → LawfulAt below (k + 1))

/-- Running on only adds to the log. -/
theorem Runs.grows {α : Type} {lvl : ℕ} {m : Run α} {s : Shell} (h : Runs lvl s m s)
    (hT : T <+: s.trace) :
    ensures (fun _ t ↦ T <+: t.trace) m (fun _ t ↦ T <+: t.trace ∧ t.nesting = s.nesting) s := by
  refine ensures_mono ?_ ?_ h
  · rintro e t ⟨-, tr, htr, -⟩
    exact hT.trans (htr ▸ List.prefix_append _ _)
  · rintro x t ⟨tr, ht⟩
    exact ⟨hT.trans (ht.trace ▸ List.prefix_append _ _), ht.nesting⟩

include hb

theorem runStage_grows (argv : List Str) (sinks : Sinks) (piped : Option Str) (isLast : Bool)
    (s : Shell) (hs : s.nesting = k) (hT : T <+: s.trace) :
    ensures (fun _ t ↦ T <+: t.trace) (runStage host below argv sinks piped isLast)
      (fun _ t ↦ T <+: t.trace ∧ t.nesting = k) s := by
  subst hs
  rw [runStage]
  simp only [ensures_bind, ensures_modify, ensures_get, ensures_set, ensures_pure]
  have hgrows : ∀ u, u.nesting = s.nesting → T <+: u.trace →
      ensures (fun _ t ↦ T <+: t.trace) (dispatch host below argv)
        (fun _ t ↦ T <+: t.trace ∧ t.nesting = u.nesting) u :=
    fun u hn hu ↦ (dispatch_runs hb argv u hn).grows hu
  refine ensures_mono (fun _ _ h ↦ h) ?_ (hgrows _ rfl (hT.trans (List.prefix_append _ _)))
  rintro result t ⟨ht, hn⟩
  exact ⟨ht.trans (List.prefix_append _ _), hn⟩

theorem stagesLoop_grows (piped : Option Str) (stderr : Str) (last : Option CommandResult)
    (stages : List Str) (s : Shell) (hs : s.nesting = k) (hT : T <+: s.trace) :
    ensures (fun _ t ↦ T <+: t.trace) (stagesLoop host below piped stderr last stages)
      (fun _ t ↦ T <+: t.trace ∧ t.nesting = k) s := by
  induction stages generalizing piped stderr last s with
  | nil =>
    cases last with
    | some result => exact ⟨hT, hs⟩
    | none =>
      rw [stagesLoop]
      split
      · exact ⟨hT, hs⟩
      · exact ⟨hT, hs⟩
  | cons stage stages ih =>
    rw [stagesLoop]
    split
    · exact ⟨hT, hs⟩
    · refine ensures_bind.mpr
        (ensures_mono (fun _ _ h ↦ h) ?_ ((parseLine_runs hb _ s hs).grows hT))
      rintro argv t ⟨ht, hn⟩
      have hs₁ := hn.trans hs
      refine ensures_bind.mpr (ensures_mono (fun _ _ h ↦ h) ?_
        ((openRedirects_runs hb _ _ t hs₁).grows ht))
      rintro opened u ⟨hu, hn⟩
      have hs₂ := hn.trans hs₁
      split
      · exact ⟨hu, hs₂⟩
      · simp only [takeSubstStderr, bind_assoc, pure_bind, ensures_bind, ensures_get, ensures_set]
        split
        · exact ih _ _ _ _ hs₂ hu
        · refine ensures_bind.mpr (ensures_mono (fun _ _ h ↦ h) ?_
            (runStage_grows hb argv _ piped stages.isEmpty _ hs₂ hu))
          rintro result v ⟨hv, hs₃⟩
          exact ih _ _ _ v hs₃ hv

/-- A pipeline is entered in the log before anything it does. -/
theorem runPipeline_begins (segment : Str) (s : Shell) (hs : s.nesting = k) :
    ensures (fun _ t ↦ s.trace ++ [.pipeline k s.heredocStdin] <+: t.trace)
      (runPipeline host below segment)
      (fun _ t ↦ s.trace ++ [.pipeline k s.heredocStdin] <+: t.trace ∧ t.nesting = k) s := by
  subst hs
  rw [runPipeline]
  simp only [ensures_bind, ensures_get, ensures_set]
  exact stagesLoop_grows hb _ _ _ _ _ rfl (List.prefix_refl _)

/-- A command line does nothing, or the first thing it does is a pipeline of its own. -/
theorem segmentsLoop_begins (out : Output) (status : ℤ) (ran : Bool) (segments : List Segment)
    (s : Shell) (hs : s.nesting = k) :
    ensures (fun _ t ↦ s.trace ++ [.pipeline k s.heredocStdin] <+: t.trace)
      (segmentsLoop host below out status ran segments)
      (fun _ t ↦ t.trace = s.trace ∨ s.trace ++ [.pipeline k s.heredocStdin] <+: t.trace) s := by
  induction segments generalizing out status ran with
  | nil => exact Or.inl rfl
  | cons segment segments ih =>
    rw [segmentsLoop]
    split
    · split
      · exact Or.inl rfl
      · exact ih _ _ _
    split
    · exact ih _ _ _
    refine ensures_bind.mpr
      (ensures_mono (fun _ _ h ↦ h) ?_ (runPipeline_begins hb segment.text s hs))
    rintro result t ⟨ht, hn⟩
    -- what the other segments do comes behind it
    have hrest : ∀ out status ran u, s.trace ++ [.pipeline k s.heredocStdin] <+: u.trace →
        u.nesting = k → ensures (fun _ t ↦ s.trace ++ [.pipeline k s.heredocStdin] <+: t.trace)
          (segmentsLoop host below out status ran segments)
          (fun _ t ↦ t.trace = s.trace ∨ s.trace ++ [.pipeline k s.heredocStdin] <+: t.trace) u :=
      fun out status ran u hu hn ↦ ensures_mono (fun _ _ h ↦ h) (fun _ _ h ↦ Or.inr h.1)
        ((segmentsLoop_runs hb out status ran segments u hn).grows hu)
    split
    · exact hrest _ _ _ t ht hn
    · simp only [ensures_bind, ensures_modify]
      split
      · exact Or.inr ht
      split
      · exact Or.inr ht
      · exact hrest _ _ _ _ ht hn

theorem execute_begins (line : Str) (s : Shell) (hs : s.nesting = k) :
    (execute host below line s).2.trace = s.trace ∨
      s.trace ++ [.pipeline k s.heredocStdin] <+: (execute host below line s).2.trace := by
  refine ensures_snd (P := fun t : Shell ↦ t.trace = s.trace ∨
    s.trace ++ [.pipeline k s.heredocStdin] <+: t.trace) ?_
  have hsegments : ∀ u, u.nesting = k → u.trace = s.trace → u.heredocStdin = s.heredocStdin →
      ensures (fun _ t ↦ t.trace = s.trace ∨ s.trace ++ [.pipeline k s.heredocStdin] <+: t.trace)
        (segmentsLoop host below .empty 0 false (splitSegments (stripComment line)))
        (fun _ t ↦ t.trace = s.trace ∨ s.trace ++ [.pipeline k s.heredocStdin] <+: t.trace) u := by
    intro u hn htrace hfeed
    rw [← htrace, ← hfeed]
    exact ensures_mono (fun _ _ h ↦ Or.inr h) (fun _ _ h ↦ h)
      (segmentsLoop_begins hb _ _ _ _ u hn)
  rw [execute]
  simp only [ensures_bind, ensures_modify, ensures_get]
  split
  · simp only [ensures_bind, ensures_set]
    split
    · exact Or.inl rfl
    · exact hsegments _ hs rfl rfl
  · exact hsegments _ hs rfl rfl

end First

/-! ### Where the text goes -/

/-- How the events of a line take a text that waits: nothing happens, or a pipeline of the line
comes first and takes it; every other pipeline, at any depth, finds nothing waiting; and every
command is given what its pipeline has for it, which is what the pipeline took for the first one and
the output of the one before for the others. -/
def Delivered (text : Str) (tr : List Event) : Prop :=
  (tr = [] ∨ ∃ rest, tr = .pipeline 0 (some text) :: rest) ∧
    Feed.Allows ⟨some text, fun _ ↦ none⟩ tr

theorem execute_delivers (host : Host) (command text : Str) (u : Shell) (hu : u.nesting = 0) :
    ∃ tr, (execute host (levels host) command (u.withHeredoc (some text))).2.trace = u.trace ++ tr ∧
      Delivered text tr := by
  have hbegins :
      (execute host (levels host) command (u.withHeredoc (some text))).2.trace = u.trace ∨
      u.trace ++ [.pipeline 0 (some text)] <+:
        (execute host (levels host) command (u.withHeredoc (some text))).2.trace :=
    execute_begins (levels_lawful host 0) command (u.withHeredoc (some text)) hu
  have hrun : Runs 0 (u.withHeredoc (some text)).begun (execute host (levels host) command)
      (u.withHeredoc (some text)) :=
    execute_runs (levels_lawful host 0) command (u.withHeredoc (some text)) hu
  have hfed : ∃ tr, (execute host (levels host) command (u.withHeredoc (some text))).2.trace =
      u.trace ++ tr ∧ Feed.Allows ⟨some text, fun _ ↦ none⟩ tr := by
    refine ensures_snd (P := fun t : Shell ↦ ∃ tr, t.trace = u.trace ++ tr ∧
      Feed.Allows ⟨some text, fun _ ↦ none⟩ tr) (ensures_mono ?_ ?_ hrun)
    · rintro e t ⟨-, tr, htr, -, -, hfed⟩
      exact ⟨tr, htr, hfed _⟩
    · rintro out t ⟨tr, ht⟩
      exact ⟨tr, ht.trace, ht.fed _⟩
  obtain ⟨tr, htr, hallows⟩ := hfed
  refine ⟨tr, htr, ?_, hallows⟩
  rw [htr] at hbegins
  rcases hbegins with hnone | ⟨rest, hrest⟩
  · exact Or.inl (List.append_right_eq_self.mp hnone)
  · rw [List.append_assoc] at hrest
    exact Or.inr ⟨rest, (List.append_cancel_left hrest).symm⟩

/-- **Routing of here-documents.** A line with an operator is parked, and the lines of the body are
collected: nothing is run. At the delimiter the line without the operator is executed, once, and the
text of the body, expanded or verbatim, is delivered to the first pipeline that this runs. -/
theorem heredoc_delivered (host : Host) {s : Shell} {line command last : Str} {doc : Heredoc}
    {lines : List Str} (hs : s.nesting = 0)
    (hline : splitHeredoc (stripComment line) = some (doc, command))
    (hlines : ∀ l ∈ lines, Heredoc.line doc l ≠ doc.delimiter)
    (hcap : Text.byteLen (bodyText doc lines) ≤ maxCommandOutputBytes)
    (hlast : Heredoc.line doc last = doc.delimiter) :
    execute host (levels host) line s = (.ok .empty, s.parked line command doc []) ∧
    resumeAll host lines (s.parked line command doc []) =
      (.ok (List.replicate lines.length .empty), s.parked line command doc (bodyText doc lines)) ∧
    (resume host last (s.parked line command doc (bodyText doc lines)) =
      match heredocText host doc (bodyText doc lines)
        ((s.parked line command doc (bodyText doc lines)).closing line doc
          (bodyText doc lines)) with
      | (.error e, u) => (.error e, u)
      | (.ok text, u) =>
        match execute host (levels host) command (u.withHeredoc (some text)) with
        | (.error e, v) => (.error e, v)
        | (.ok out, v) => (.ok out, v.withHeredoc none)) ∧
    ∀ text u, heredocText host doc (bodyText doc lines)
        ((s.parked line command doc (bodyText doc lines)).closing line doc (bodyText doc lines)) =
          (.ok text, u) →
      ∃ tr, (execute host (levels host) command (u.withHeredoc (some text))).2.trace =
        u.trace ++ tr ∧ Delivered text tr := by
  have hpending : (s.parked line command doc []).pending = some (.heredoc command line doc []) :=
    rfl
  refine ⟨execute_parks _ hs hline, resumeAll_body lines hpending hlines hcap, ?_,
    fun text u hu ↦ ?_⟩
  · rw [resume_delimiter rfl hlast, runHeredoc_eq]
    rfl
  · obtain ⟨tr, htext⟩ := ensures_ok hu (heredocText_runs host doc _ _)
    exact execute_delivers host command text u (htext.nesting.trans hs)

theorem heredoc_delivered_one_line :
    resumeAll bareHost ["x".toList]
      (Shell.bare.parked "true <<E".toList "true ".toList ⟨['E'], false, true⟩ []) =
        (.ok [.empty],
          Shell.bare.parked "true <<E".toList "true ".toList ⟨['E'], false, true⟩ "x\n".toList) :=
  (heredoc_delivered bareHost rfl
    (show splitHeredoc (stripComment "true <<E".toList) =
      some (⟨['E'], false, true⟩, "true ".toList) from by decide +kernel)
    (by decide +kernel) (by decide +kernel)
    (show Heredoc.line ⟨['E'], false, true⟩ ['E'] = ['E'] from by decide +kernel)).2.1

/-- The body of `true; false <<E` goes to `true`. -/
theorem heredoc_body_of_other_segment :
    ∃ t, ((do
        let _ ← execute bareHost (levels bareHost) "true; false <<E".toList
        let _ ← resumeAll bareHost ["x".toList]
        resume bareHost ['E']) Shell.bare).2 = t ∧
      .ran 0 ["true".toList] (some "x\n".toList) ∈ t.trace ∧
      .ran 0 ["false".toList] none ∈ t.trace ∧
      .ran 0 ["false".toList] (some "x\n".toList) ∉ t.trace :=
  ⟨_, rfl, by decide +kernel⟩

end Interp

end Mimic
