import Mimic.Shell.Trace

/-!
# The interpreter is balanced

Every function of the interpreter returns at the nesting it was called at, and with as many
substitutions open, and on the way the nesting stays within `MAX_NESTED_COMMANDS`. The levels of the
model are enough for that: no run stops for want of one.

Each function is shown to `Runs` on from the session it is given, provided that the functions one
level deeper do (`LawfulAt`). What else `Ran` says of a run comes with it.
-/

namespace Mimic

namespace Interp

open Mimic.Parser Outcomes

/-- The session a command line starts with: no captures, and at the top a full budget. -/
def Shell.begun (s : Shell) : Shell :=
  { s with
    captures := []
    substBudget := if s.nesting = 0 then maxCommandOutputBytes else s.substBudget }

theorem Shell.begun_of_pos {s : Shell} (h : s.nesting ≠ 0) : s.begun = s.withCaptures [] := by
  rw [begun, if_neg h]
  rfl

/-- The functions of a level run on from a session at nesting `k`. -/
structure LawfulAt (below : Level) (k : ℕ) : Prop where
  execute : ∀ line s, s.nesting = k → Runs k s.begun (below.execute line) s
  expand : ∀ line s, s.nesting = k → Runs k s (below.expand line) s
  dispatch : ∀ argv s, s.nesting = k → Runs k s (below.dispatch argv) s

/-! ### One level deeper -/

section Nested

variable {s u u' v : Shell} {tr : List Event} {j lvl lvl' : ℕ}

/-- A run one level deeper that stops has not gone too deep, seen from above. -/
theorem Runs.nested {α β : Type} {m : Run α} {f : α → Run β}
    (hu : u.trace = s.trace ++ [.nested u.nesting u.substDepth]) (hn : u.nesting = s.nesting + 1)
    (hd : u.substDepth = s.substDepth + j) (hbudget : u.substBudget = s.substBudget)
    (hfeed : u.heredocStdin = s.heredocStdin) (hj : j ≤ 1) (hs : s.nesting < maxNestedCommands)
    (hm : Runs lvl' u m u') (hf : ∀ x v tr, Ran lvl' u v tr → Runs lvl s (f x) v) :
    Runs lvl s (m >>= f) u' := by
  rw [Runs, ensures_bind]
  refine ensures_mono ?_ (fun x v h ↦ h.elim (hf x v)) hm
  rintro e t ⟨he, tr, htr, hw, hb, hfed⟩
  rw [hn, hd] at hu hw
  refine ⟨he, .nested (s.nesting + 1) (s.substDepth + j) :: tr, ?_, ?_, ?_, fun next ↦ ?_⟩
  · rw [htr, hu, List.append_assoc]
    rfl
  · have hw' := hw.shift hj
    simp [hw']
    omega
  · simpa [hbudget] using hb
  · exact ⟨trivial, hfeed ▸ hfed next⟩

/-- Into the next level and back. -/
theorem Ran.nest (hj : j ≤ 1) (hs : s.nesting < maxNestedCommands)
    (h : Ran (s.nesting + 1) (s.atDepth (s.nesting + 1) (s.substDepth + j)) v tr) :
    Ran (s.nesting + 1) s (v.atDepth (v.nesting - 1) (v.substDepth - j))
      (.nested (s.nesting + 1) (s.substDepth + j) :: tr ++ [.nested s.nesting s.substDepth]) := by
  have hn : v.nesting - 1 = s.nesting := by rw [h.nesting]; rfl
  have hd : v.substDepth - j = s.substDepth := by rw [h.substDepth]; exact Nat.add_sub_cancel ..
  rw [hn, hd]
  constructor
  case trace =>
    show v.trace ++ _ = _
    rw [h.trace]
    simp [Shell.atDepth, Shell.log]
  case nesting => rfl
  case substDepth => rfl
  case within =>
    have hw := h.within.shift hj
    simp [hw]
    omega
  case above => simp [h.above]
  case captures => simpa [Shell.atDepth, Shell.log] using h.captures
  case budget => simpa [Shell.atDepth, Shell.log] using h.budget
  case hostname => exact h.hostname
  case pid => exact h.pid
  case interactive => exact h.interactive
  case heredocLog => exact h.heredocLog
  case history => simpa [Shell.atDepth, Shell.log] using h.history
  case stdin => simpa [Shell.atDepth, Shell.log] using h.stdin
  case stdoutIsTty => simpa [Shell.atDepth, Shell.log] using h.stdoutIsTty
  case fed =>
    intro next
    simpa [Feed.allows, Feed.after, Shell.atDepth, Shell.log] using h.fed next
  case waiting =>
    intro next
    simpa [Feed.after, Shell.atDepth, Shell.log] using h.waiting next

/-- A run that starts without captures may also start with some. -/
theorem Ran.withCaptures (h : Ran lvl (s.withCaptures []) v tr) (cs : List Capture) :
    Ran lvl (s.withCaptures cs) (v.withCaptures (cs ++ v.captures)) tr :=
  { h with captures := h.captures.append_left cs }

/-- Splicing a text that the budget has room for. -/
theorem Ran.splice {stderr value : Str} (h : Text.byteLen value ≤ s.substBudget) :
    Ran lvl s (s.splice stderr value) [.spliced (Text.byteLen value)] := by
  constructor
  case budget => simpa [Shell.splice, Shell.log] using Nat.sub_add_cancel h
  all_goals simp [Shell.splice, Shell.log, Feed.allows, Feed.after]

end Nested

/-! ### Expansion and redirects -/

section Expansion

variable {host : Host} {below : Level} {k : ℕ}
  (hb : k < maxNestedCommands → LawfulAt below (k + 1))

include hb

theorem substitute_runs (body : Str) (s : Shell) (hs : s.nesting = k) :
    Runs (k + 1) s (substitute below body) s := by
  subst hs
  rw [substitute, Runs.get_bind]
  split
  · exact .pure .refl
  · rename_i hlt
    have hlt : s.nesting < maxNestedCommands := Nat.lt_of_not_le hlt
    simp only [enter, Runs.modify_bind]
    refine Runs.nested (u := ((s.atDepth (s.nesting + 1) (s.substDepth + 1)).withCaptures []).begun)
      (j := 1) rfl rfl rfl rfl rfl le_rfl hlt ((hb hlt).execute body _ rfl) ?_
    intro output v tr h
    -- what the body did, back on the level of the line
    have h' : Ran (s.nesting + 1) (s.atDepth (s.nesting + 1) (s.substDepth + 1)) (v.restore s) tr :=
      (Ran.withCaptures h s.captures).thenQuiet rfl
    simp only [Runs.modify_bind, Runs.get_bind]
    refine Runs.pure ((h'.nest le_rfl hlt).trans (Ran.splice ?_))
    exact Text.byteLen_takeBytes_le _ _

theorem arithmetic_runs (body : Str) (s : Shell) (hs : s.nesting = k) :
    Runs (k + 1) s (arithmetic host below body) s := by
  subst hs
  rw [arithmetic, Runs.get_bind]
  split
  · exact .pure .refl
  · rename_i hlt
    have hlt : s.nesting < maxNestedCommands := Nat.lt_of_not_le hlt
    simp only [enter, Runs.modify_bind]
    refine Runs.nested (u := s.atDepth (s.nesting + 1) s.substDepth) (j := 0) rfl rfl rfl rfl
      rfl zero_le_one hlt ((hb hlt).expand body _ rfl) ?_
    intro expanded v tr h
    simp only [Runs.modify_bind, Runs.get_bind]
    exact .pure (h.nest zero_le_one hlt)

theorem regionValue_runs (region : Substitution) (s : Shell) (hs : s.nesting = k) :
    Runs (k + 1) s (regionValue host below region) s := by
  rw [regionValue]
  split
  · exact .panic .refl
  · split
    · exact arithmetic_runs hb _ s hs
    · exact substitute_runs hb _ s hs

theorem expandLoop_runs (mode : Expansion) (skip : ℕ) (inSingle inDouble : Bool) (text : Str)
    (s : Shell) (hs : s.nesting = k) :
    Runs (k + 1) s (expandLoop host below mode skip inSingle inDouble text) s := by
  fun_induction expandLoop host below mode skip inSingle inDouble text generalizing s
  case case1 => exact .pure .refl
  case case2 ih => exact ih s hs
  case case3 ih =>
    refine (regionValue_runs hb _ s hs).bind fun value t tr h ↦ ?_
    exact Runs.step h (ih t (h.nesting.trans hs)) fun _ _ _ h ↦ .pure h
  case case4 => exact .pure .refl
  -- the other cases put a text in front of what comes out of the rest of the line
  all_goals
    rename_i ih
    exact (ih s hs).bind fun _ _ _ h ↦ .pure h

theorem expandWith_runs (line : Str) (mode : Expansion) (s : Shell) (hs : s.nesting = k) :
    Runs (k + 1) s (expandWith host below line mode) s :=
  expandLoop_runs hb mode 0 false false line s hs

theorem parseLine_runs (line : Str) (s : Shell) (hs : s.nesting = k) :
    Runs (k + 1) s (parseLine host below line) s :=
  (expandWith_runs hb line .words s hs).bind fun _ _ _ h ↦ .pure h

theorem openRedirects_runs (sinks : Sinks) (redirects : List Redirect) (s : Shell)
    (hs : s.nesting = k) : Runs (k + 1) s (openRedirects host below sinks redirects) s := by
  induction redirects generalizing sinks s with
  | nil => exact .pure .refl
  | cons redirect redirects ih =>
    rw [openRedirects]
    split
    · rename_i path append _
      refine (parseLine_runs hb path s hs).bind fun words t tr h ↦ ?_
      split
      · rename_i word
        simp only [Runs.get_bind, Runs.set_bind]
        have h' := h.thenQuiet
          (u := { t with vfs := (openRedirect host.now t word append).1 }) rfl
        split
        · exact .pure h'
        · exact .after h' (ih _ _ (h'.nesting.trans hs))
      · exact .pure h
    · split
      · exact ih _ s hs
      · exact ih _ s hs

end Expansion

/-! ### Commands -/

section Captures

variable {s t : Shell} {tr : List Event} {lvl : ℕ}

/-- A line that starts without captures, seen from a session that has some. -/
theorem Runs.rebase {α β : Type} {m : Run α} {f : α → Run β} {cs cs' : List Capture}
    (hm : Runs lvl (s.withCaptures cs) m s)
    (hf : ∀ x t tr, Ran lvl (s.withCaptures cs) t tr → Runs lvl (s.withCaptures cs') (f x) t) :
    Runs lvl (s.withCaptures cs') (m >>= f) s := by
  rw [Runs, ensures_bind]
  exact ensures_mono (fun _ _ h ↦ h) (fun x t h ↦ h.elim (hf x t)) hm

/-- The captures of a script line, entered behind the line itself. -/
theorem Ran.record (h : Ran lvl (s.withCaptures []) t tr) (cs : List Capture) (c : Capture) :
    Ran lvl (s.withCaptures cs)
      (((t.withCaptures []).log (.captured c)).withCaptures (cs ++ [c] ++ t.captures))
      (tr ++ [.captured c]) := by
  refine (h.withCaptures cs).trans ?_
  constructor
  case captures =>
    show (cs ++ [c] ++ t.captures).Perm (cs ++ t.captures ++ [c])
    rw [List.append_assoc, List.append_assoc]
    exact List.perm_append_comm.append_left cs
  all_goals simp [Shell.withCaptures, Shell.log, Feed.allows, Feed.after]

/-- What a command that runs no other does. -/
theorem Ran.apply (e : Effect) : Ran lvl s (s.apply e) (e.captures.map .captured) := by
  have hpush : ∀ (t : Shell) (c : Capture), Ran lvl t (t.pushCapture c) [.captured c] := by
    intro t c
    constructor <;> simp [Shell.pushCapture, Shell.log, Feed.allows, Feed.after]
  -- one capture after the other
  have hall : ∀ (cs : List Capture) (t : Shell), Ran lvl t { t with
      captures := t.captures ++ cs, trace := t.trace ++ cs.map .captured } (cs.map .captured) := by
    intro cs
    induction cs with
    | nil => exact fun t ↦ .quiet (by simp [Shell.tracked])
    | cons c cs ih => exact fun t ↦ ((hpush t c).trans (ih _)).thenQuiet (by
        simp [Shell.tracked, Shell.pushCapture, Shell.log])
  exact (hall e.captures s).thenQuiet rfl

theorem Ran.forget : Ran lvl s ({ s with history := [] }.log .cleared) [.cleared] := by
  constructor <;> simp [Shell.log, Feed.allows, Feed.after]

end Captures

section Commands

variable {host : Host} {below : Level} {k : ℕ} (hb : LawfulAt below (k + 1))

include hb

theorem scriptLoop_runs (collected : List Capture) (out errs : Str) (status : ℤ) (lines : List Str)
    (s : Shell) (hs : s.nesting = k + 1) :
    Runs (k + 1) (s.withCaptures collected) (scriptLoop below collected out errs status lines)
      s := by
  induction lines generalizing collected out errs status s with
  | nil =>
    rw [scriptLoop, Runs.modify_bind]
    exact .pure .refl
  | cons line lines ih =>
    rw [scriptLoop]
    split
    · exact ih _ _ _ _ s hs
    · rw [Runs.modify_bind]
      refine .after (Ran.mark (e := .scriptLine (Text.trim line)) rfl) ?_
      have hline := hb.execute (Text.trim line) (s.log (.scriptLine (Text.trim line))) hs
      rw [Shell.begun_of_pos (Nat.ne_of_gt (hs ▸ Nat.succ_pos k))] at hline
      refine Runs.rebase hline fun result t tr h ↦ ?_
      simp only [Runs.get_bind, Runs.set_bind]
      have h' := h.record collected (.scriptCommand (Text.trim line) result.status)
      split
      · rw [Runs.modify_bind]
        exact .pure (h'.trans (.mark rfl))
      · exact .after h' (ih _ _ _ _ _ (h'.nesting.trans hs))

theorem runScript_runs (text : Str) (s : Shell) (hs : s.nesting = k + 1) :
    Runs (k + 1) s (runScript below text) s :=
  .after (Ran.mark rfl) (scriptLoop_runs hb s.captures [] [] 0 _ _ hs)

theorem shellCmd_runs (args : List Str) (s : Shell) (hs : s.nesting = k + 1) :
    Runs (k + 1) s (shellCmd host below args) s := by
  induction args with
  | nil =>
    rw [shellCmd, Runs.get_bind]
    split
    · split
      · exact .pure .refl
      · exact runScript_runs hb _ s hs
    · exact .pure .refl
  | cons arg args ih =>
    rw [shellCmd.eq_def]
    simp only
    split
    · split
      · exact .pure .refl
      · refine (hb.expand _ s hs).bind fun expanded t tr h ↦ ?_
        split
        · exact .pure h
        · exact .after h (hb.dispatch _ t (h.nesting.trans hs))
    · split
      · exact ih
      · rw [Runs.get_bind]
        split
        · exact .pure .refl
        · split
          · exact .pure .refl
          · exact runScript_runs hb _ s hs

theorem scp_runs (args : List Str) (s : Shell) (hs : s.nesting = k + 1) :
    Runs (k + 1) s (scp below args) s := by
  simp only [scp]
  split
  · exact .pure .refl
  · split
    · exact .pure .refl
    · exact hb.dispatch _ s hs

theorem sudoCmd_runs (args : List Str) (s : Shell) (hs : s.nesting = k + 1) :
    Runs (k + 1) s (sudoCmd host below args) s := by
  rw [sudoCmd, Runs.get_bind]
  split
  · exact .pure .refl
  · split
    · rw [Runs.set_bind]
      split
      · exact .pure (.quiet rfl)
      · exact .pure (.quiet rfl)
    · exact .pure .refl
  · rw [Runs.set_bind]
    refine Runs.step (.quiet rfl) (hb.dispatch _ _ hs) fun result t tr h ↦ ?_
    rw [Runs.modify_bind]
    exact .pure ((h.thenQuiet (u := { t with uid := s.uid, gid := s.gid }) rfl).trans (.mark rfl))

theorem nohup_runs (args : List Str) (s : Shell) (hs : s.nesting = k + 1) :
    Runs (k + 1) s (nohup below args) s := by
  rw [nohup]
  split
  · exact .pure .refl
  · exact (hb.dispatch _ s hs).bind fun _ _ _ h ↦ .pure h

theorem xargsLoop_runs (command : List Str) (out errs : Str) (status : ℤ) (groups : List (List Str))
    (s : Shell) (hs : s.nesting = k + 1) :
    Runs (k + 1) s (xargsLoop below command out errs status groups) s := by
  induction groups generalizing out errs status s with
  | nil => exact .pure .refl
  | cons group groups ih =>
    refine (hb.dispatch _ s hs).bind fun result t tr h ↦ ?_
    simp only
    split
    · exact .pure h
    · exact .after h (ih _ _ _ t (h.nesting.trans hs))

theorem xargs_runs (args : List Str) (s : Shell) (hs : s.nesting = k + 1) :
    Runs (k + 1) s (xargs below args) s := by
  rw [xargs, Runs.get_bind]
  simp only
  split
  · exact .pure .refl
  · exact xargsLoop_runs hb _ _ _ _ _ s hs

omit hb in
theorem history_runs (args : List Str) (s : Shell) : Runs (k + 1) s (history args) s := by
  rw [history, Runs.get_bind]
  split
  · rw [Runs.set_bind]
    exact .pure .forget
  · exact .pure .refl

omit hb in
theorem leaf_runs (cmd : Str) (args : List Str) (s : Shell) :
    Runs (k + 1) s (leaf host cmd args) s := by
  rw [leaf, Runs.get_bind]
  simp only [Runs.set_bind]
  exact .pure (.apply _)

theorem handler_runs (cmd : Str) (args : List Str) (s : Shell) (hs : s.nesting = k + 1)
    (run : Run CommandResult) (hrun : handler host below cmd args = some run) :
    Runs (k + 1) s run s := by
  simp only [handler] at hrun
  split_ifs at hrun <;> cases hrun
  · exact sudoCmd_runs hb args s hs
  · exact shellCmd_runs hb args s hs
  · exact scp_runs hb args s hs
  · exact xargs_runs hb args s hs
  · exact nohup_runs hb args s hs
  · exact history_runs args s
  · exact leaf_runs cmd args s

theorem dispatchInner_runs (argv : List Str) (s : Shell) (hs : s.nesting = k + 1) :
    Runs (k + 1) s (dispatchInner host below argv) s := by
  cases argv with
  | nil => exact .panic .refl
  | cons cmd args =>
    rw [dispatchInner]
    split
    · exact .pure .refl
    split
    · exact .pure .refl
    split
    · rw [Runs.get_bind]
      exact .pure .refl
    split
    · rename_i run hrun
      exact (handler_runs hb cmd args s hs run hrun).map
    · split
      · exact .pure .refl
      · exact .pure .refl

end Commands

/-! ### Pipelines and lines -/

/-- A pipeline that started in `s₀` has come to `s`, with an input for its next command. -/
def Staged (k : ℕ) (s₀ s : Shell) (piped : Option Str) : Prop :=
  ∃ pre, Ran k s₀ s pre ∧ ∀ next, (Feed.thru ⟨s₀.heredocStdin, next⟩ pre).next k = piped

section Stages

variable {k : ℕ} {s₀ s t : Shell} {tr : List Event} {piped : Option Str}

theorem Staged.inner (h : Staged k s₀ s piped) (h' : Ran (k + 1) s t tr) :
    Staged k s₀ t piped := by
  obtain ⟨pre, hpre, hnext⟩ := h
  refine ⟨pre ++ tr, hpre.trans (h'.mono (Nat.le_succ k)), fun next ↦ ?_⟩
  rw [Feed.thru_append, Feed.next_thru h'.above (Nat.lt_succ_self k), hnext]

/-- A command has run, on the input that was there for it. -/
theorem Staged.ran {argv : List Str} {tty : Bool} {vfs : Vfs} {output : Str}
    (h : Staged s.nesting s₀ s piped)
    (hd : Ran (s.nesting + 1)
      ({ s with stdin := piped, stdoutIsTty := tty }.log (.ran s.nesting argv piped)) t tr) :
    Staged s.nesting s₀
      ({ t with stdin := none, stdoutIsTty := true, vfs := vfs }.log (.piped t.nesting output))
      (some output) := by
  obtain ⟨pre, hpre, hnext⟩ := h
  have hn : t.nesting = s.nesting := hd.nesting
  refine ⟨pre ++ .ran s.nesting argv piped :: (tr ++ [.piped t.nesting output]), ?_, fun next ↦ by
    simp [Feed.after, hn]⟩
  have hw : Within s₀.nesting s₀.substDepth tr := by
    have := hd.within
    simp only [Shell.log] at this
    rwa [hpre.nesting, hpre.substDepth] at this
  constructor
  case trace => simp [Shell.log, hd.trace, hpre.trace]
  case nesting => exact hd.nesting.trans hpre.nesting
  case substDepth => exact hd.substDepth.trans hpre.substDepth
  case within => simp [hpre.within, hw]
  case above => simp [hpre.above, hd.above.mono (Nat.le_succ _), hn]
  case captures =>
    simpa [Shell.log] using hd.captures.trans (hpre.captures.append_right _)
  case budget =>
    have := hd.budget
    have := hpre.budget
    simp [Shell.log] at *
    omega
  case hostname => exact hd.hostname.trans hpre.hostname
  case pid => exact hd.pid.trans hpre.pid
  case interactive => exact hd.interactive.trans hpre.interactive
  case heredocLog => exact hd.heredocLog.trans hpre.heredocLog
  case history =>
    have hh := hd.history
    simp only [Shell.log, hpre.history] at hh
    simp only [Shell.log, hh, forgot_append, forgot_cons]
    cases forgot pre <;> cases forgot tr <;> rfl
  case stdin => simp [Shell.log]
  case stdoutIsTty => simp [Shell.log]
  case fed =>
    intro next
    have := hd.fed (Feed.thru ⟨s₀.heredocStdin, next⟩ pre).next
    simp only [Shell.log, ← hpre.waiting next] at this
    simp [hpre.fed, Feed.allows, Feed.after, hnext, this]
  case waiting =>
    intro next
    have := hd.waiting (Feed.thru ⟨s₀.heredocStdin, next⟩ pre).next
    simp only [Shell.log, ← hpre.waiting next] at this
    simp [Feed.after, this, Shell.log]

end Stages

section Lines

variable {host : Host} {below : Level} {k : ℕ}
  (hb : k < maxNestedCommands → LawfulAt below (k + 1))

include hb

theorem dispatch_runs (argv : List Str) (s : Shell) (hs : s.nesting = k) :
    Runs (k + 1) s (dispatch host below argv) s := by
  subst hs
  rw [dispatch, Runs.get_bind]
  split
  · exact .pure .refl
  · rename_i hlt
    have hlt : s.nesting < maxNestedCommands := Nat.lt_of_not_le hlt
    simp only [enter, Runs.modify_bind]
    refine Runs.nested (u := s.atDepth (s.nesting + 1) s.substDepth) (j := 0) rfl rfl rfl rfl
      rfl zero_le_one hlt (dispatchInner_runs (hb hlt) argv _ rfl) ?_
    intro result v tr h
    simp only [Runs.modify_bind, Runs.get_bind]
    exact .pure (h.nest zero_le_one hlt)

theorem runStage_runs (argv : List Str) (sinks : Sinks) (piped : Option Str) (isLast : Bool)
    (s₀ s : Shell) (h : Staged k s₀ s piped) (hs : s.nesting = k) :
    ensures (Stopped s₀) (runStage host below argv sinks piped isLast)
      (fun result t ↦ Staged k s₀ t (some result.output) ∧ t.nesting = k) s := by
  subst hs
  rw [runStage]
  simp only [ensures_bind, ensures_modify, ensures_get, ensures_set, ensures_pure]
  refine ensures_mono ?_ ?_ (dispatch_runs hb argv _ rfl)
  · rintro e t ⟨he, tr, htr, hw, hbudget, hfed⟩
    obtain ⟨pre, hpre, hnext⟩ := h
    refine ⟨he, pre ++ .ran s.nesting argv piped :: tr, ?_, ?_, ?_, fun next ↦ ?_⟩
    · simp [htr, Shell.log, hpre.trace]
    · simp only [Shell.log, hpre.nesting, hpre.substDepth] at hw
      simp [hpre.within, hw]
    · have := hpre.budget
      simp only [Shell.log] at hbudget
      simp
      omega
    · exact hpre.fed_append next ⟨(hnext next).symm, hfed _⟩
  · rintro result t ⟨tr, ht⟩
    exact ⟨h.ran ht, ht.nesting⟩

theorem stagesLoop_runs (piped : Option Str) (stderr : Str) (last : Option CommandResult)
    (stages : List Str) (s₀ s : Shell) (h : Staged k s₀ s piped) (hs : s.nesting = k) :
    Runs k s₀ (stagesLoop host below piped stderr last stages) s := by
  induction stages generalizing piped stderr last s with
  | nil =>
    obtain ⟨pre, hpre, -⟩ := h
    cases last with
    | some result => exact .pure hpre
    | none =>
      rw [stagesLoop]
      split
      · exact .pure hpre
      · exact .pure hpre
  | cons stage stages ih =>
    obtain ⟨pre, hpre, -⟩ := id h
    rw [stagesLoop]
    split
    · exact .pure hpre
    · refine Runs.inner hpre (Nat.le_succ k) (parseLine_runs hb _ s hs) fun argv t tr ht ↦ ?_
      have h₁ := h.inner ht
      have hs₁ := ht.nesting.trans hs
      obtain ⟨pre₁, hpre₁, -⟩ := id h₁
      refine Runs.inner hpre₁ (Nat.le_succ k) (openRedirects_runs hb _ _ t hs₁) ?_
      intro opened u tr hu
      have h₂ := h₁.inner hu
      have hs₂ := hu.nesting.trans hs₁
      split
      · obtain ⟨pre₂, hpre₂, -⟩ := h₂
        exact .pure hpre₂
      · simp only [takeSubstStderr, Runs.get_bind, Runs.set_bind, bind_assoc, pure_bind]
        have h₃ : Staged k s₀ { u with substStderr := [] } piped := h₂.inner (Ran.quiet rfl)
        split
        · exact ih _ _ _ _ h₃ hs₂
        · refine ensures_bind.mpr (ensures_mono (fun _ _ h ↦ h) ?_
            (runStage_runs hb argv _ piped stages.isEmpty s₀ _ h₃ hs₂))
          exact fun result v h ↦ ih _ _ _ v h.1 h.2

theorem runPipeline_runs (segment : Str) (s : Shell) (hs : s.nesting = k) :
    Runs k s (runPipeline host below segment) s := by
  rw [runPipeline, Runs.get_bind]
  simp only [Runs.set_bind]
  refine stagesLoop_runs hb _ _ _ _ s _ ⟨[.pipeline s.nesting s.heredocStdin], ?_, ?_⟩ hs
  · constructor <;> simp [Shell.withHeredoc, Shell.log, Feed.allows, Feed.after, hs]
  · exact fun next ↦ by simp [Feed.after, hs]

theorem segmentsLoop_runs (out : Output) (status : ℤ) (ran : Bool) (segments : List Segment)
    (s : Shell) (hs : s.nesting = k) :
    Runs k s (segmentsLoop host below out status ran segments) s := by
  induction segments generalizing out status ran s with
  | nil => exact .pure .refl
  | cons segment segments ih =>
    rw [segmentsLoop]
    split
    · split
      · exact .pure .refl
      · exact ih _ _ _ s hs
    split
    · exact ih _ _ _ s hs
    refine (runPipeline_runs hb segment.text s hs).bind fun result t tr h ↦ ?_
    have hs' := h.nesting.trans hs
    split
    · exact .after h (ih _ _ _ t hs')
    · rename_i result
      rw [Runs.modify_bind]
      have h' := h.thenQuiet (u := { t with lastStatus := result.status }) rfl
      simp only
      split
      · exact .pure h'
      split
      · exact .pure h'
      · exact .after h' (ih _ _ _ _ hs')

theorem execute_runs (line : Str) (s : Shell) (hs : s.nesting = k) :
    Runs k s.begun (execute host below line) s := by
  rw [execute, Runs.modify_bind, Runs.get_bind]
  split
  · rename_i hzero
    rw [Runs.set_bind]
    have hbegun : Ran k s.begun
        { s.withCaptures [] with substBudget := maxCommandOutputBytes, substStderr := [] } [] :=
      .quiet (by
        simp [Shell.tracked, Shell.begun, Shell.withCaptures, show s.nesting = 0 from hzero])
    split
    · rw [Runs.modify_bind]
      exact .pure (hbegun.thenQuiet rfl)
    · exact .after hbegun (segmentsLoop_runs hb _ _ _ _ _ hs)
  · rename_i hpos
    rw [Shell.begun_of_pos (show s.nesting ≠ 0 from hpos)]
    exact segmentsLoop_runs hb _ _ _ _ _ hs

end Lines

/-! ### All levels -/

/-- Every level runs on from the nesting it is reached at. -/
theorem level_lawful (host : Host) (n k : ℕ) (hk : k < maxNestedCommands)
    (hn : maxNestedCommands ≤ k + n) : LawfulAt (level host n) (k + 1) := by
  induction n generalizing k with
  | zero => omega
  | succ n ih =>
    have hb : k + 1 < maxNestedCommands → LawfulAt (level host n) (k + 1 + 1) :=
      fun h ↦ ih (k + 1) h (by omega)
    exact {
      execute := fun line s hs ↦ execute_runs hb line s hs
      expand := fun line s hs ↦ (expandWith_runs hb line .words s hs).mono (Nat.le_succ _)
      dispatch := fun argv s hs ↦ (dispatch_runs hb argv s hs).mono (Nat.le_succ _) }

/-- The levels below a session run on from there. -/
theorem levels_lawful (host : Host) (k : ℕ) (hk : k < maxNestedCommands) :
    LawfulAt (levels host) (k + 1) :=
  level_lawful host maxNestedCommands k hk (Nat.le_add_left _ _)

/-! ### Balance -/

/-- The depths a session goes through in a run: the nesting, and the substitutions open. -/
def depths (s : Shell) (tr : List Event) : List (ℕ × ℕ) :=
  (s.nesting, s.substDepth) :: tr.filterMap fun e ↦
    match e with
    | .nested n d => some (n, d)
    | _ => none

/-- Between two states of a run the nesting was within the limit, and the open substitutions were no
more than the levels, if they were not at the beginning. -/
def InBounds (s t : Shell) : Prop :=
  ∃ tr, t.trace = s.trace ++ tr ∧ ∀ p ∈ depths s tr,
    p.1 ≤ maxNestedCommands ∧ (s.substDepth ≤ s.nesting → p.2 ≤ p.1)

/-- A call stays in bounds, and returns at the depth it started at; it may panic, but not stop for
want of a level. -/
def Balanced {α : Type} (m : Run α) (s : Shell) : Prop :=
  ensures (fun e t ↦ e = .panic ∧ InBounds s t) m
    (fun _ t ↦ t.nesting = s.nesting ∧ t.substDepth = s.substDepth ∧ InBounds s t) s

theorem inBounds_of_within {s t : Shell} {tr : List Event} (hs : s.nesting ≤ maxNestedCommands)
    (ht : t.trace = s.trace ++ tr) (hw : Within s.nesting s.substDepth tr) : InBounds s t := by
  refine ⟨tr, ht, ?_⟩
  simp only [depths, List.mem_cons, List.mem_filterMap]
  rintro p (rfl | ⟨e, he, hp⟩)
  · exact ⟨hs, id⟩
  · have := hw e he
    cases e <;> cases hp
    obtain ⟨h₁, h₂⟩ := this
    exact ⟨h₁, fun h ↦ by simp only; omega⟩

theorem Runs.balanced {α : Type} {lvl : ℕ} {m : Run α} {s₀ s : Shell} (h : Runs lvl s₀ m s)
    (hs : s.nesting ≤ maxNestedCommands) (htr : s₀.trace = s.trace) (hn : s₀.nesting = s.nesting)
    (hd : s₀.substDepth = s.substDepth) : Balanced m s := by
  refine ensures_mono ?_ ?_ h
  · rintro e t ⟨he, tr, ht, hw, -⟩
    rw [hn, hd] at hw
    exact ⟨he, inBounds_of_within hs (htr ▸ ht) hw⟩
  · rintro x t ⟨tr, ht⟩
    have hw := ht.within
    rw [hn, hd] at hw
    exact ⟨ht.nesting.trans hn, ht.substDepth.trans hd, inBounds_of_within hs (htr ▸ ht.trace) hw⟩

/-- **The interpreter is balanced.** Called in a session whose nesting is within the limit, each of
its functions ends, never goes deeper than the limit, and returns at the depth it was called at. -/
theorem interpreter_balanced (host : Host) (s : Shell) (hs : s.nesting ≤ maxNestedCommands) :
    (∀ line, Balanced (execute host (levels host) line) s) ∧
    (∀ segment, Balanced (runPipeline host (levels host) segment) s) ∧
    (∀ redirects, Balanced (openRedirects host (levels host) .empty redirects) s) ∧
    (∀ line mode, Balanced (expandWith host (levels host) line mode) s) ∧
    (∀ body, Balanced (substitute (levels host) body) s) ∧
    (∀ body, Balanced (arithmetic host (levels host) body) s) ∧
    ∀ argv, Balanced (dispatch host (levels host) argv) s := by
  have hb := levels_lawful host s.nesting
  refine ⟨fun line ↦ ?_, fun segment ↦ ?_, fun redirects ↦ ?_, fun line mode ↦ ?_, fun body ↦ ?_,
    fun body ↦ ?_, fun argv ↦ ?_⟩
  · exact (execute_runs hb line s rfl).balanced hs rfl rfl rfl
  · exact (runPipeline_runs hb segment s rfl).balanced hs rfl rfl rfl
  · exact (openRedirects_runs hb .empty redirects s rfl).balanced hs rfl rfl rfl
  · exact (expandWith_runs hb line mode s rfl).balanced hs rfl rfl rfl
  · exact (substitute_runs hb body s rfl).balanced hs rfl rfl rfl
  · exact (arithmetic_runs hb body s rfl).balanced hs rfl rfl rfl
  · exact (dispatch_runs hb argv s rfl).balanced hs rfl rfl rfl

/-- At the bottom a substitution still returns. -/
theorem interpreter_balanced_deepest :
    Balanced (substitute (levels bareHost) "true".toList) { Shell.bare with nesting := 16 } :=
  (interpreter_balanced bareHost { Shell.bare with nesting := 16 } (by decide)).2.2.2.2.1 _

end Interp

end Mimic
