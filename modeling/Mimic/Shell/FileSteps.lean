import Mimic.Shell.Invariants
import Mimic.Vfs.Edits
import Mimic.Vfs.Placement
import Mimic.Vfs.Traversal

/-!
# What a session does to its filesystem

The interpreter works on the arena through mutator calls only, and the nodes it hands to them are
there: those it holds itself (`Shell.seats`), those a path leads to, and those that it has opened
for a redirection. So whatever a session is told to do, its arena is one that mutator calls make of
the arena it had (`Kept`), provided that the same holds of the commands that are the host's
(`Host.KeepsFiles`).

A redirection is opened before its command runs and written to afterwards. Its node is still there
then, since nodes are never removed (`Sinks.InRange.mono`).
-/

namespace Mimic

namespace Interp

open Mimic.Parser Outcomes Vfs

/-- The nodes that a session holds. -/
def Shell.seats (s : Shell) : List NodeId := [s.cwd, s.home, s.prevCwd]

/-- The arena is a tree, and the nodes held are in it. -/
structure Shell.Seated (s : Shell) : Prop where
  wellFormed : s.vfs.WellFormed
  seats : ∀ x ∈ s.seats, x < s.vfs.nodes.length

/-- Mutator calls have made the arena of `t` of the one of `s`. -/
def Kept (s t : Shell) : Prop := s.Seated → t.Seated ∧ s.vfs.Edits t.vfs

namespace Shell.Seated

variable {s : Shell} (hs : s.Seated)

include hs

theorem cwd_lt : s.cwd < s.vfs.nodes.length := hs.seats _ List.mem_cons_self

theorem resolve_lt {path : Str} {x : NodeId} (h : s.vfs.resolve s.cwd path = some x) :
    x < s.vfs.nodes.length := lt_of_resolve hs.wellFormed hs.cwd_lt h

/-- The session with another arena. -/
theorem withVfs {v : Vfs} (h : s.vfs.Edits v) : ({ s with vfs := v } : Shell).Seated :=
  ⟨h.wellFormed hs.wellFormed, fun x hx ↦ (hs.seats x hx).trans_le (h.length_le hs.wellFormed)⟩

end Shell.Seated

namespace Kept

variable {s t u : Shell} {v : Vfs}

theorem refl (s : Shell) : Kept s s := fun hs ↦ ⟨hs, .refl _⟩

theorem trans (h : Kept s t) (h' : Kept t u) : Kept s u := fun hs ↦ by
  obtain ⟨ht, hst⟩ := h hs
  obtain ⟨hu, htu⟩ := h' ht
  exact ⟨hu, hst.trans htu⟩

theorem ends : Ends Kept Kept := ⟨refl, trans, id, trans⟩

/-- Later the session holds nodes that it held before. -/
theorem back (h : Kept s t) (hvfs : u.vfs = t.vfs)
    (hseats : ∀ x ∈ u.seats, x ∈ s.seats ∨ x ∈ t.seats) : Kept s u := fun hs ↦ by
  obtain ⟨ht, hst⟩ := h hs
  refine ⟨⟨hvfs.symm ▸ ht.wellFormed, fun x hx ↦ ?_⟩, hvfs.symm ▸ hst⟩
  rw [hvfs]
  exact (hseats x hx).elim (fun h ↦ (hs.seats x h).trans_le (hst.length_le hs.wellFormed))
    (ht.seats x)

/-- What is no part of the filesystem changes. -/
theorem quiet (h : Kept s t) (hvfs : u.vfs = t.vfs) (hseats : u.seats = t.seats) : Kept s u :=
  h.back hvfs fun _ hx ↦ .inr (hseats ▸ hx)

/-- Mutator calls. -/
theorem edit (h : s.Seated → s.vfs.Edits v) (hvfs : t.vfs = v) (hseats : t.seats = s.seats) :
    Kept s t := fun hs ↦
  ⟨⟨hvfs.symm ▸ (hs.withVfs (h hs)).wellFormed, fun x hx ↦
    hvfs.symm ▸ (hs.withVfs (h hs)).seats x (hseats ▸ hx)⟩, hvfs.symm ▸ h hs⟩

end Kept

/-- The commands of the host work on the arena through mutator calls. -/
def Host.KeepsFiles (host : Host) : Prop :=
  ∀ cmd args s, Kept s (s.apply (host.command cmd args s))

/-! ### Opening and writing -/

section Steps

variable {now : Timestamp} {s : Shell}

/-- The node behind a sink is there. -/
def Sink.InRange (sink : Option Sink) (v : Vfs) : Prop :=
  ∀ x ∈ sink, ∀ node ∈ x.node, node < v.nodes.length

/-- The nodes that the streams of a stage go to are there. -/
structure Sinks.InRange (sinks : Sinks) (v : Vfs) : Prop where
  stdout : Sink.InRange sinks.stdout v
  stderr : Sink.InRange sinks.stderr v

theorem Sink.InRange.mono {sink : Option Sink} {v w : Vfs} (h : Sink.InRange sink v)
    (hle : v.nodes.length ≤ w.nodes.length) : Sink.InRange sink w :=
  fun x hx node hnode ↦ (h x hx node hnode).trans_le hle

namespace Sinks

theorem inRange_empty (v : Vfs) : Sinks.empty.InRange v :=
  ⟨fun x hx ↦ absurd hx (Option.not_mem_none x), fun x hx ↦ absurd hx (Option.not_mem_none x)⟩

namespace InRange

variable {sinks : Sinks} {sink : Option Sink} {v w : Vfs} (h : sinks.InRange v)

include h

theorem mono (hle : v.nodes.length ≤ w.nodes.length) : sinks.InRange w :=
  ⟨h.stdout.mono hle, h.stderr.mono hle⟩

theorem point (hsink : Sink.InRange sink v) (stream : Stream) (merged : Bool) :
    (sinks.point stream sink merged).InRange v := by
  cases stream with
  | stdout => exact ⟨hsink, h.stderr⟩
  | stderr => exact ⟨h.stdout, hsink⟩
  | both => exact ⟨hsink, hsink⟩

end InRange

end Sinks

theorem edits_openRedirect (now : Timestamp) (path : Str) (append : Bool) (hs : s.Seated) :
    s.vfs.Edits (openRedirect now s path append).1 ∧
      ∀ node, (openRedirect now s path append).2 = .ok (some node) →
        node < (openRedirect now s path append).1.nodes.length := by
  rw [openRedirect]
  split
  · exact ⟨.refl _, fun _ h ↦ by cases h⟩
  rename_i parent name hparent
  have hp := lt_of_isDir (isDir_of_resolveParent hparent)
  split
  · rename_i existing hchild
    have hlt := hs.wellFormed.entry_lt hchild
    split
    · exact ⟨.refl _, fun _ h ↦ by cases h⟩
    split
    · exact ⟨.refl _, fun _ h ↦ by cases h⟩
    split
    · exact ⟨.refl _, fun _ h ↦ by cases h⟩
    split
    · exact ⟨.refl _, fun _ h ↦ by cases h; exact hlt⟩
    have hedit : s.vfs.Edits (s.vfs.writeFile now existing [] false).1 := .writeFile hlt _ _
    dsimp only
    split
    · exact ⟨hedit, fun _ h ↦ by cases h; exact hlt.trans_le (hedit.length_le hs.wellFormed)⟩
    · exact ⟨hedit, fun _ h ↦ by cases h⟩
  · split
    · exact ⟨.refl _, fun _ h ↦ by cases h⟩
    have hedit : s.vfs.Edits (s.vfs.addFile now parent name [] 0o644 s.uid s.gid).1 :=
      .addFile hp _ _ _ _
    dsimp only
    split
    · exact ⟨hedit, fun _ h ↦ by cases h⟩
    · exact ⟨hedit, fun _ h ↦ by cases h; exact addFile_snd_lt hs.wellFormed hp⟩

theorem edits_divert {vfs : Vfs} {sink : Option Sink} {text : Str} {written : Option NodeId}
    (h : Sink.InRange sink vfs) : vfs.Edits (divert now vfs sink text written).1 := by
  cases sink with
  | none => exact .refl vfs
  | some sink =>
    rw [divert]
    split
    · exact .refl vfs
    show vfs.Edits (writeRedirect now vfs sink (Text.toUtf8 text) _).1
    rw [writeRedirect]
    split
    · exact .refl vfs
    · rename_i node hnode
      exact .writeFile (h sink rfl node hnode) _ _

theorem edits_routeOutput (now : Timestamp) {vfs : Vfs} (hv : vfs.WellFormed)
    (result : CommandResult) {sinks : Sinks} (h : sinks.InRange vfs) :
    vfs.Edits (routeOutput now vfs result sinks).1 := by
  have herr : vfs.Edits (divert now vfs sinks.stderr result.stderr none).1 := edits_divert h.stderr
  exact herr.trans (edits_divert (h.stdout.mono (herr.length_le hv)))

theorem kept_writeText (host : Host) (s : Shell) (path text : Str) :
    Kept s (writeText host s path text) := by
  rw [writeText]
  split
  · exact .refl s
  rename_i parent name hparent
  split
  · rename_i id hchild
    exact .edit (fun hs ↦ .writeFile (hs.wellFormed.entry_lt hchild) _ _) rfl rfl
  split
  · exact .refl s
  · exact .edit (fun _ ↦ .addFile (lt_of_isDir (isDir_of_resolveParent hparent)) _ _ _ _) rfl rfl

/-- A home directory is made by mutator calls, and is there. -/
theorem edits_ensureHome {v : Vfs} (hv : v.WellFormed) (path : Str) (uid gid : UInt32) :
    v.Edits (ensureHome now v path uid gid).1 ∧
      (ensureHome now v path uid gid).2 < (ensureHome now v path uid gid).1.nodes.length := by
  rw [ensureHome]
  split
  · rename_i id hid
    exact ⟨.refl v, lt_of_resolve hv hv.root_lt hid⟩
  have hmade : v.Edits (v.mkdirP now path 0o755 uid gid).1 := .mkdirP path _ _ _
  have hlt : ∀ p, (v.mkdirP now path 0o755 uid gid).2 = some p →
      p < (v.mkdirP now path 0o755 uid gid).1.nodes.length := fun _ ↦ mkdirP_snd_lt now _ _ _ hv
  split
  · rename_i w hw
    rw [hw] at hmade
    exact ⟨hmade, (hmade.wellFormed hv).root_lt⟩
  · rename_i w home hw
    rw [hw] at hmade hlt
    have hhome := hlt home rfl
    have hw := hmade.wellFormed hv
    set bashrc := w.addFile now home ".bashrc".toList (Text.toUtf8 "# ~/.bashrc\n".toList) 0o644
      uid gid
    have hbashrc : w.Edits bashrc.1 := .addFile hhome _ _ _ _
    have hle := hbashrc.length_le hw
    have hprofile : bashrc.1.Edits (bashrc.1.addFile now home ".profile".toList
        (Text.toUtf8 "# ~/.profile\n".toList) 0o644 uid gid).1 :=
      .addFile (hhome.trans_le hle) _ _ _ _
    exact ⟨(hmade.trans hbashrc).trans hprofile,
      hhome.trans_le (hle.trans (hprofile.length_le (hbashrc.wellFormed hw)))⟩

theorem kept_switchUser (now : Timestamp) (user : Str) (s : Shell) :
    Kept s (switchUser now user s) := fun hs ↦ by
  simp only [switchUser]
  set home := ensureHome now s.vfs _ _ _ with hhome
  obtain ⟨hedits, hlt⟩ : s.vfs.Edits home.1 ∧ home.2 < home.1.nodes.length :=
    edits_ensureHome hs.wellFormed _ _ _
  exact ⟨⟨hedits.wellFormed hs.wellFormed, List.forall_mem_cons.mpr
    ⟨hlt, List.forall_mem_cons.mpr ⟨hlt, List.forall_mem_singleton.mpr hlt⟩⟩⟩, hedits⟩

end Steps

/-! ### Functions of the interpreter -/

section Functions

variable {host : Host} {below : Level} {s₀ s t : Shell}

/-- A program behind a step. -/
theorem Kept.after {α : Type} {m : Run α} (h : Kept s₀ t) (hm : Keeps Kept Kept t m s) :
    Keeps Kept Kept s₀ m s := Keeps.after Kept.ends h hm

variable (hhost : host.KeepsFiles) (hb : below.Keep Kept Kept)

include hb

theorem substitute_kept (body : Str) (s : Shell) :
    Keeps Kept Kept s (substitute below body) s := by
  rw [substitute, Keeps.get_bind]
  split
  · exact .pure (.refl s)
  · simp only [enter, Keeps.modify_bind]
    have hsub : Kept s ((s.atDepth (s.nesting + 1) (s.substDepth + 1)).withCaptures []) :=
      (Kept.refl s).quiet rfl rfl
    refine (hsub.after (hb.execute body _)).bind fun output v h ↦ ?_
    simp only [Keeps.modify_bind, Keeps.get_bind]
    -- the subshell's directories are left with it
    exact .pure (h.back rfl fun _ hx ↦ .inl hx)

theorem arithmetic_kept (body : Str) (s : Shell) :
    Keeps Kept Kept s (arithmetic host below body) s := by
  rw [arithmetic, Keeps.get_bind]
  split
  · exact .pure (.refl s)
  · simp only [enter, Keeps.modify_bind]
    have hsub : Kept s (s.atDepth (s.nesting + 1) s.substDepth) := (Kept.refl s).quiet rfl rfl
    refine (hsub.after (hb.expand body _)).bind fun expanded v h ↦ ?_
    simp only [Keeps.get_bind, Keeps.modify_bind]
    exact .pure (h.quiet rfl rfl)

theorem expandLoop_kept (mode : Expansion) (skip : ℕ) (inSingle inDouble : Bool) (text : Str)
    (s : Shell) :
    Keeps Kept Kept s (expandLoop host below mode skip inSingle inDouble text) s := by
  fun_induction expandLoop host below mode skip inSingle inDouble text generalizing s
  case case1 => exact .pure (.refl s)
  case case2 ih => exact ih s
  case case3 region _ ih =>
    have hregion : Keeps Kept Kept s (regionValue host below region) s := by
      rw [regionValue]
      split
      · exact .stop (.refl s)
      split
      · exact arithmetic_kept hb _ s
      · exact substitute_kept hb _ s
    exact hregion.bind fun value t h ↦ (h.after (ih t)).bind fun _ _ h ↦ .pure h
  case case4 => exact .pure (.refl s)
  all_goals
    rename_i ih
    exact (ih s).bind fun _ _ h ↦ .pure h

theorem parseLine_kept (line : Str) (s : Shell) :
    Keeps Kept Kept s (parseLine host below line) s :=
  (expandLoop_kept hb .words 0 false false line s).bind fun _ _ h ↦ .pure h

/-- The targets that are opened are there. -/
theorem openRedirects_kept (sinks : Sinks) (redirects : List Redirect) (s : Shell)
    (h : Kept s₀ s) (hsinks : s₀.Seated → sinks.InRange s.vfs) :
    ensures (fun _ t ↦ Kept s₀ t) (openRedirects host below sinks redirects)
      (fun opened t ↦ Kept s₀ t ∧ ∀ sinks, opened = .ok sinks →
        s₀.Seated → sinks.InRange t.vfs) s := by
  induction redirects generalizing sinks s with
  | nil => exact ⟨h, fun _ h hs ↦ Except.ok.inj h ▸ hsinks hs⟩
  | cons redirect redirects ih =>
    rw [openRedirects]
    split
    · rename_i path append _
      have hwords : Keeps Kept Kept s (parseLine host below path) s := parseLine_kept hb path s
      rw [ensures_bind]
      refine ensures_mono (fun _ _ h' ↦ h.trans h') (fun words t h' ↦ ?_) hwords
      have ht := h.trans h'
      have hgrown : s₀.Seated → sinks.InRange t.vfs := fun hs ↦
        (hsinks hs).mono ((h' (h hs).1).2.length_le (h hs).1.wellFormed)
      split
      · rename_i word
        rw [ensures_bind, ensures_get, ensures_bind, ensures_set]
        have hopen : Kept t { t with vfs := (openRedirect host.now t word append).1 } :=
          .edit (fun hs ↦ (edits_openRedirect _ _ _ hs).1) rfl rfl
        split
        · exact ⟨ht.trans hopen, fun _ h ↦ by cases h⟩
        · rename_i node hnode
          refine ih _ _ (ht.trans hopen) fun hs ↦ ?_
          obtain ⟨hedits, hlt⟩ := edits_openRedirect host.now word append (ht hs).1
          refine ((hgrown hs).mono (hedits.length_le (ht hs).1.wellFormed)).point ?_ _ _
          intro x hx node' hnode'
          obtain rfl := Option.some.inj hx
          exact hlt node' (hnode.trans (congrArg Except.ok hnode'))
      · exact ⟨ht, fun _ h ↦ by cases h⟩
    · split
      · exact ih _ s h hsinks
      · refine ih _ s h fun hs ↦ (hsinks hs).point ?_ _ _
        split
        · exact (hsinks hs).stdout
        · exact (hsinks hs).stderr

/-! ### Commands -/

theorem scriptLoop_kept (collected : List Capture) (out errs : Str) (status : ℤ)
    (lines : List Str) (s : Shell) :
    Keeps Kept Kept s (scriptLoop below collected out errs status lines) s := by
  induction lines generalizing collected out errs status s with
  | nil =>
    rw [scriptLoop, Keeps.modify_bind]
    exact .pure ((Kept.refl s).quiet rfl rfl)
  | cons line lines ih =>
    rw [scriptLoop]
    split
    · exact ih _ _ _ _ s
    · rw [Keeps.modify_bind]
      have hlog : Kept s (s.log (.scriptLine (Text.trim line))) := (Kept.refl s).quiet rfl rfl
      refine (hlog.after (hb.execute (Text.trim line) _)).bind fun result t h ↦ ?_
      simp only [Keeps.get_bind, Keeps.set_bind]
      split
      · rw [Keeps.modify_bind]
        exact .pure (h.quiet rfl rfl)
      · refine Kept.after ?_ (ih _ _ _ _ _)
        exact h.quiet rfl rfl

theorem runScript_kept (text : Str) (s : Shell) : Keeps Kept Kept s (runScript below text) s :=
  Kept.after (t := (s.withCaptures []).log _) ((Kept.refl s).quiet rfl rfl)
    (scriptLoop_kept hb s.captures [] [] 0 _ _)

theorem shellCmd_kept (args : List Str) (s : Shell) :
    Keeps Kept Kept s (shellCmd host below args) s := by
  induction args with
  | nil =>
    rw [shellCmd, Keeps.get_bind]
    split
    · split
      · exact .pure (.refl s)
      · exact runScript_kept hb _ s
    · exact .pure (.refl s)
  | cons arg args ih =>
    rw [shellCmd.eq_def]
    simp only
    split
    · split
      · exact .pure (.refl s)
      · refine (hb.expand _ s).bind fun expanded t h ↦ ?_
        split
        · exact .pure h
        · exact h.after (hb.dispatch _ t)
    · split
      · exact ih
      · rw [Keeps.get_bind]
        split
        · exact .pure (.refl s)
        · split
          · exact .pure (.refl s)
          · exact runScript_kept hb _ s

theorem sudoCmd_kept (args : List Str) (s : Shell) :
    Keeps Kept Kept s (sudoCmd host below args) s := by
  rw [sudoCmd, Keeps.get_bind]
  split
  · exact .pure (.refl s)
  · split
    · rw [Keeps.set_bind]
      have hroot := kept_switchUser host.now "root".toList s
      split
      · refine .pure (hroot.back rfl fun x hx ↦ .inl ?_)
        -- `-s` leaves the session where it is
        simp only [Shell.seats, List.mem_cons] at hx ⊢
        tauto
      · exact .pure hroot
    · exact .pure (.refl s)
  · rw [Keeps.set_bind]
    have hids : Kept s { s with uid := 0, gid := 0 } := (Kept.refl s).quiet rfl rfl
    refine (hids.after (hb.dispatch _ _)).bind fun result t ht ↦ ?_
    rw [Keeps.modify_bind]
    exact .pure (ht.quiet rfl rfl)

theorem xargsLoop_kept (command : List Str) (out errs : Str) (status : ℤ)
    (groups : List (List Str)) (s : Shell) :
    Keeps Kept Kept s (xargsLoop below command out errs status groups) s := by
  induction groups generalizing out errs status s with
  | nil => exact .pure (.refl s)
  | cons group groups ih =>
    refine (hb.dispatch _ s).bind fun result t h ↦ ?_
    simp only
    split
    · exact .pure h
    · exact h.after (ih _ _ _ t)

include hhost in
theorem handler_kept (cmd : Str) (args : List Str) (s : Shell) (run : Run CommandResult)
    (hrun : handler host below cmd args = some run) : Keeps Kept Kept s run s := by
  simp only [handler] at hrun
  split_ifs at hrun <;> cases hrun
  · exact sudoCmd_kept hb args s
  · exact shellCmd_kept hb args s
  · rw [scp]
    split
    · exact .pure (.refl s)
    · dsimp only
      split
      · exact .pure (.refl s)
      · exact hb.dispatch _ s
  · rw [xargs, Keeps.get_bind]
    dsimp only
    split
    · exact .pure (.refl s)
    · exact xargsLoop_kept hb _ _ _ _ _ s
  · rw [nohup]
    split
    · exact .pure (.refl s)
    · exact (hb.dispatch _ s).bind fun _ _ h ↦ .pure h
  · rw [history, Keeps.get_bind]
    split
    · rw [Keeps.set_bind]
      exact .pure ((Kept.refl s).quiet rfl rfl)
    · exact .pure (.refl s)
  · rw [leaf, Keeps.get_bind]
    simp only [Keeps.set_bind]
    exact .pure (hhost cmd args s)

include hhost in
theorem dispatchInner_kept (argv : List Str) (s : Shell) :
    Keeps Kept Kept s (dispatchInner host below argv) s := by
  cases argv with
  | nil => exact .stop (.refl s)
  | cons cmd args =>
    rw [dispatchInner]
    split
    · exact .pure (.refl s)
    split
    · exact .pure (.refl s)
    split
    · rw [Keeps.get_bind]
      exact .pure (.refl s)
    split
    · rename_i run hrun
      exact (handler_kept hhost hb cmd args s run hrun).map
    · split
      · exact .pure (.refl s)
      · exact .pure (.refl s)

include hhost in
theorem dispatch_kept (argv : List Str) (s : Shell) :
    Keeps Kept Kept s (dispatch host below argv) s := by
  rw [dispatch, Keeps.get_bind]
  split
  · exact .pure (.refl s)
  · simp only [enter, Keeps.modify_bind]
    have hdeep : Kept s (s.atDepth (s.nesting + 1) s.substDepth) := (Kept.refl s).quiet rfl rfl
    refine (hdeep.after (dispatchInner_kept hhost hb argv _)).bind fun result t h ↦ ?_
    simp only [Keeps.modify_bind, Keeps.get_bind]
    exact .pure (h.quiet rfl rfl)

/-! ### Pipelines and lines -/

include hhost in
/-- A command whose output goes to nodes that are there. -/
theorem runStage_kept (argv : List Str) (sinks : Sinks) (piped : Option Str) (isLast : Bool)
    (s : Shell) (h : Kept s₀ s) (hsinks : s₀.Seated → sinks.InRange s.vfs) :
    Keeps Kept Kept s₀ (runStage host below argv sinks piped isLast) s := by
  rw [runStage]
  simp only [Keeps.modify_bind]
  set begun := ({ s with
    stdin := piped
    stdoutIsTty := isLast && sinks.stdout.isNone && s.substDepth == 0 } : Shell).log
      (.ran s.nesting argv piped)
  have hbegun : Kept s begun := (Kept.refl s).quiet rfl rfl
  refine Keeps.inner (hbegun.after (dispatch_kept hhost hb argv begun))
    (fun u hu ↦ h.trans hu) fun result t ht ↦ ?_
  simp only [Keeps.get_bind, Keeps.set_bind]
  have hrouted : Kept s₀ { t with vfs := (routeOutput host.now t.vfs result sinks).1 } := by
    intro hs
    obtain ⟨hseated, hst⟩ := h hs
    obtain ⟨hseated', htu⟩ := ht hseated
    have hedit := edits_routeOutput host.now hseated'.wellFormed result
      ((hsinks hs).mono (htu.length_le hseated.wellFormed))
    exact ⟨hseated'.withVfs hedit, (hst.trans htu).trans hedit⟩
  exact .pure (hrouted.quiet rfl rfl)

include hhost in
theorem stagesLoop_kept (piped : Option Str) (stderr : Str) (last : Option CommandResult)
    (stages : List Str) (s : Shell) :
    Keeps Kept Kept s (stagesLoop host below piped stderr last stages) s := by
  induction stages generalizing piped stderr last s with
  | nil =>
    cases last with
    | some result => exact .pure (.refl s)
    | none =>
      rw [stagesLoop]
      split
      · exact .pure (.refl s)
      · exact .pure (.refl s)
  | cons stage stages ih =>
    rw [stagesLoop]
    split
    · exact .pure (.refl s)
    refine (parseLine_kept hb _ s).bind fun argv t ht ↦ ?_
    rw [Keeps, ensures_bind]
    refine ensures_mono (fun _ _ h ↦ h) (fun opened u hu ↦ ?_)
      (openRedirects_kept hb .empty _ t ht fun _ ↦ Sinks.inRange_empty _)
    show Keeps Kept Kept s _ u
    split
    · exact .pure hu.1
    rename_i sinks
    simp only [takeSubstStderr, Keeps.get_bind, Keeps.set_bind, bind_assoc, pure_bind]
    have hu' : Kept s { u with substStderr := [] } := hu.1.quiet rfl rfl
    split
    · exact hu'.after (ih _ _ _ _)
    · refine (runStage_kept hhost hb argv sinks piped stages.isEmpty _ hu'
        (hu.2 sinks rfl)).bind fun result v hv ↦ ?_
      exact hv.after (ih _ _ _ v)

include hhost in
theorem segmentsLoop_kept (out : Output) (status : ℤ) (ran : Bool) (segments : List Segment)
    (s : Shell) : Keeps Kept Kept s (segmentsLoop host below out status ran segments) s := by
  induction segments generalizing out status ran s with
  | nil => exact .pure (.refl s)
  | cons segment segments ih =>
    rw [segmentsLoop]
    split
    · split
      · exact .pure (.refl s)
      · exact ih _ _ _ s
    split
    · exact ih _ _ _ s
    have hpipeline : Keeps Kept Kept s (runPipeline host below segment.text) s := by
      rw [runPipeline, Keeps.get_bind]
      simp only [Keeps.set_bind]
      refine Kept.after ?_ (stagesLoop_kept hhost hb _ _ _ _ _)
      exact (Kept.refl s).quiet rfl rfl
    refine hpipeline.bind fun result t h ↦ ?_
    split
    · exact h.after (ih _ _ _ t)
    · rename_i result
      rw [Keeps.modify_bind]
      have h' : Kept s { t with lastStatus := result.status } := h.quiet rfl rfl
      simp only
      split
      · exact .pure h'
      split
      · exact .pure h'
      · exact h'.after (ih _ _ _ _)

include hhost in
theorem execute_kept (line : Str) (s : Shell) :
    Keeps Kept Kept s (execute host below line) s := by
  rw [execute, Keeps.modify_bind, Keeps.get_bind]
  split
  · rw [Keeps.set_bind]
    split
    · rw [Keeps.modify_bind]
      exact .pure ((Kept.refl s).quiet rfl rfl)
    · refine Kept.after ?_ (segmentsLoop_kept hhost hb _ _ _ _ _)
      exact (Kept.refl s).quiet rfl rfl
  · refine Kept.after ?_ (segmentsLoop_kept hhost hb _ _ _ _ _)
    exact (Kept.refl s).quiet rfl rfl

end Functions

/-! ### Sessions -/

section Sessions

variable {host : Host} (hhost : host.KeepsFiles)

include hhost

theorem level_kept (n : ℕ) : (level host n).Keep Kept Kept := by
  induction n with
  | zero =>
    exact {
      execute := fun _ s ↦ .stop (.refl s)
      expand := fun _ s ↦ .stop (.refl s)
      dispatch := fun _ s ↦ .stop (.refl s) }
  | succ n ih =>
    exact {
      execute := execute_kept hhost ih
      expand := fun line s ↦ expandLoop_kept ih .words 0 false false line s
      dispatch := dispatch_kept hhost ih }

theorem runHeredoc_kept (command raw : Str) (doc : Heredoc) (body : Str) (s : Shell) :
    Keeps Kept Kept s (runHeredoc host command raw doc body) s := by
  rw [runHeredoc, Keeps.modify_bind]
  have htext : Keeps Kept Kept (s.closing raw doc body) (heredocText host doc body)
      (s.closing raw doc body) := by
    rw [heredocText]
    split
    · exact expandLoop_kept (level_kept hhost maxNestedCommands) .literal 0 false false body _
    · exact .pure (.refl _)
  have hclosing : Kept s (s.closing raw doc body) := (Kept.refl s).quiet rfl rfl
  refine (hclosing.after htext).bind fun text t ht ↦ ?_
  rw [Keeps.modify_bind]
  have ht' : Kept s (t.withHeredoc (some text)) := ht.quiet rfl rfl
  refine (ht'.after (execute_kept hhost (level_kept hhost maxNestedCommands) command _)).bind
    fun out u hu ↦ ?_
  rw [Keeps.modify_bind]
  exact .pure (hu.quiet rfl rfl)

theorem resume_kept (input : Str) (s : Shell) : Keeps Kept Kept s (resume host input) s := by
  rw [resume, Keeps.get_bind, Keeps.set_bind]
  have hset : Kept s (s.withPending none) := (Kept.refl s).quiet rfl rfl
  split
  · rename_i target _
    rw [Keeps.modify_bind]
    have hpush : Kept s ((s.withPending none).pushCapture (.suAuth target input)) :=
      hset.quiet rfl rfl
    exact .pure (hpush.trans (kept_switchUser _ _ _))
  · rw [Keeps.modify_bind]
    exact .pure (hset.quiet rfl rfl)
  · rename_i target first _
    split
    · exact .pure hset
    · rw [Keeps.modify_bind]
      have hpush : Kept s ((s.withPending none).pushCapture (.passwordChange target first)) :=
        hset.quiet rfl rfl
      exact .pure (hpush.trans (kept_writeText _ _ _ _))
  · rename_i command raw doc body _
    simp only
    split
    · exact hset.after (runHeredoc_kept hhost command raw doc body _)
    · rw [Keeps.modify_bind]
      exact .pure (hset.quiet rfl rfl)
  · exact .pure hset

/-- **What a session does with an input, mutator calls do to its arena.** -/
theorem process_kept (input : Input) (s : Shell) :
    Keeps Kept Kept s (input.process host) s := by
  cases input with
  | line text =>
    exact (execute_kept hhost (level_kept hhost maxNestedCommands) text s).map
  | answer text => exact (resume_kept hhost text s).map
  | eof =>
    show Keeps Kept Kept s (finishHeredocAtEof host) s
    rw [finishHeredocAtEof, Keeps.get_bind, Keeps.set_bind]
    have hset : Kept s (s.withPending none) := (Kept.refl s).quiet rfl rfl
    split
    · rename_i command raw doc body _
      exact (hset.after (runHeredoc_kept hhost command raw doc body _)).bind fun _ _ ht ↦ .pure ht
    · exact .pure hset

end Sessions

end Interp

end Mimic
