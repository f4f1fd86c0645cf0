import Mimic.Shell.Invariants
import Mimic.Shell.Words

/-!
# The lines of scripts

A script runs at most `MAX_SCRIPT_LINES` of its lines, but a line may start further scripts, and
each of them counts from the beginning. What a command line runs in total is what its scripts had to
run, up to where they were left: every script line in the log is one of a script in the log.
-/

namespace Mimic

namespace Interp

open Mimic.Parser Outcomes

/-! ### Counting -/

/-- How many of these lines a script runs. -/
def runnable (lines : List Str) : ℕ := lines.countP isScriptCommand

namespace Event

/-- The lines an event started. -/
@[simp] def lineRun : Event → ℕ
  | scriptLine _ => 1
  | _ => 0

/-- The lines a script that started has to run. -/
@[simp] def linesOffered : Event → ℕ
  | script lines => runnable lines
  | _ => 0

/-- The lines that a script did not come to. -/
@[simp] def linesLeft : Event → ℕ
  | left lines => runnable lines
  | _ => 0

end Event

/-- The script lines that were run. -/
def scriptLines (tr : List Event) : ℕ := (tr.map Event.lineRun).sum

/-- What the scripts had to run, all together. -/
def offered (tr : List Event) : ℕ := (tr.map Event.linesOffered).sum

/-- What scripts that were left did not come to. -/
def abandoned (tr : List Event) : ℕ := (tr.map Event.linesLeft).sum

section Counting

variable {tr tr' : List Event} {e : Event}

@[simp] theorem scriptLines_append :
    scriptLines (tr ++ tr') = scriptLines tr + scriptLines tr' := by
  simp [scriptLines]

@[simp] theorem offered_append : offered (tr ++ tr') = offered tr + offered tr' := by
  simp [offered]

@[simp] theorem abandoned_append : abandoned (tr ++ tr') = abandoned tr + abandoned tr' := by
  simp [abandoned]

@[simp] theorem scriptLines_cons : scriptLines (e :: tr) = e.lineRun + scriptLines tr :=
  List.sum_cons

@[simp] theorem offered_cons : offered (e :: tr) = e.linesOffered + offered tr := List.sum_cons

@[simp] theorem abandoned_cons : abandoned (e :: tr) = e.linesLeft + abandoned tr := List.sum_cons

@[simp] theorem scriptLines_nil : scriptLines [] = 0 := rfl

@[simp] theorem offered_nil : offered [] = 0 := rfl

@[simp] theorem abandoned_nil : abandoned [] = 0 := rfl

theorem runnable_cons (line : Str) (lines : List Str) :
    runnable (line :: lines) = runnable lines + if isScriptCommand line then 1 else 0 := by
  simp [runnable, List.countP_cons]

end Counting

/-! ### The lines of a run -/

/-- The log from `s` to `t` has the property, and its scripts are within the limit. -/
def Logged (P : List Event → Prop) (s t : Shell) : Prop :=
  ∃ tr, t.trace = s.trace ++ tr ∧ P tr ∧ ∀ lines, .script lines ∈ tr → lines.length ≤ maxScriptLines

/-- Every line that a script had to run was run, unless the script was left. -/
def Booked (tr : List Event) : Prop := scriptLines tr + abandoned tr = offered tr

/-- No more lines were run than scripts had to run. -/
def Covered (tr : List Event) : Prop := scriptLines tr ≤ offered tr

section Logs

variable {P Q P' : List Event → Prop} {s t u : Shell}

theorem Logged.of_eq (h : t.trace = s.trace) (hP : P []) : Logged P s t :=
  ⟨[], by rw [h, List.append_nil], hP, nofun⟩

theorem Logged.event {e : Event} (hP : P [e])
    (he : ∀ lines, e = .script lines → lines.length ≤ maxScriptLines) : Logged P s (s.log e) :=
  ⟨[e], rfl, hP, fun lines h ↦ he lines (List.mem_singleton.mp h).symm⟩

/-- Events that are no part of a script. -/
theorem Logged.unscripted {tr : List Event} (h : t.trace = s.trace ++ tr)
    (htr : ∀ e ∈ tr, e.lineRun = 0 ∧ e.linesLeft = 0 ∧ ∀ lines, e ≠ .script lines) :
    Logged Booked s t := by
  refine ⟨tr, h, ?_, fun lines hmem ↦ absurd rfl ((htr _ hmem).2.2 lines)⟩
  have hrun : scriptLines tr = 0 := List.sum_eq_zero (by
    simpa using fun e he ↦ (htr e he).1)
  have hleft : abandoned tr = 0 := List.sum_eq_zero (by
    simpa using fun e he ↦ (htr e he).2.1)
  have hoffered : offered tr = 0 := List.sum_eq_zero (by
    simp only [List.mem_map, forall_exists_index, and_imp, forall_apply_eq_imp_iff₂]
    intro e he
    have hne := (htr e he).2.2
    cases e with
    | script => exact absurd rfl (hne _)
    | _ => rfl)
  rw [Booked, hrun, hleft, hoffered]

theorem Logged.trans (h : Logged P s t) (h' : Logged Q t u)
    (hPQ : ∀ a b, P a → Q b → P' (a ++ b)) : Logged P' s u := by
  obtain ⟨a, hst, hP, ha⟩ := h
  obtain ⟨b, htu, hQ, hb⟩ := h'
  refine ⟨a ++ b, by rw [htu, hst, List.append_assoc], hPQ a b hP hQ, fun lines hmem ↦ ?_⟩
  rcases List.mem_append.mp hmem with hmem | hmem
  · exact ha lines hmem
  · exact hb lines hmem

theorem Logged.mono (h : Logged P s t) (hPQ : ∀ tr, P tr → Q tr) : Logged Q s t := by
  obtain ⟨tr, htr, hP, hcap⟩ := h
  exact ⟨tr, htr, hPQ tr hP, hcap⟩

theorem Booked.append {a b : List Event} (ha : Booked a) (hb : Booked b) : Booked (a ++ b) := by
  rw [Booked] at *
  simp only [scriptLines_append, abandoned_append, offered_append]
  omega

/-- A line of a script, from where it is entered in the log. -/
theorem Logged.line {line : Str} (h : Logged P (s.log (.scriptLine line)) t)
    (hP : ∀ tr, P tr → Q (.scriptLine line :: tr)) : Logged Q s t := by
  have hbegun : Logged (· = [.scriptLine line]) s (s.log (.scriptLine line)) :=
    .event rfl nofun
  exact hbegun.trans h fun a b ha hb ↦ by
    rw [ha]
    exact hP b hb

/-- The lines of a script are booked as they are run. -/
theorem Lines.logged {lines rest : List Str} (h : Lines (Logged Booked) lines rest s t) :
    Logged (fun tr ↦ scriptLines tr + abandoned tr + runnable rest =
      offered tr + runnable lines) s t := by
  induction h with
  | done => exact .of_eq rfl rfl
  | skip hline _ ih =>
    refine ih.mono fun tr htr ↦ ?_
    rwa [runnable_cons, if_neg hline]
  | run hline hrun _ ih =>
    refine (hrun.line (Q := fun tr ↦ scriptLines tr + abandoned tr = offered tr + 1)
      fun tr htr ↦ ?_).trans ih fun a b ha hb ↦ ?_
    · rw [Booked] at htr
      simp
      omega
    · rw [runnable_cons, if_pos hline]
      simp only [scriptLines_append, abandoned_append, offered_append]
      omega

/-- A script that has come to some of its lines. -/
theorem Lines.script {lines rest : List Str} (hlen : lines.length ≤ maxScriptLines)
    (h : Lines (Logged Booked) lines rest (s.log (.script lines)) t) :
    Logged (fun tr ↦ scriptLines tr + abandoned tr + runnable rest = offered tr) s t := by
  have hbegun : Logged (· = [.script lines]) s (s.log (.script lines)) :=
    .event rfl fun lines' h ↦ by
      obtain rfl := Event.script.inj h
      exact hlen
  refine hbegun.trans h.logged fun a b ha hb ↦ ?_
  subst ha
  simp
  omega

end Logs

/-- The lines that are run are booked. -/
theorem booked_invariant (host : Host) : Invariant host (Logged Covered) (Logged Booked) where
  refl s := .of_eq rfl rfl
  trans h h' := h.trans h' fun a b ha hb ↦ ha.append hb
  stops h := h.mono fun tr htr ↦ by
    rw [Booked] at htr
    rw [Covered]
    omega
  transStops h h' := h.trans h' fun a b ha hb ↦ by
    rw [Booked] at ha
    rw [Covered] at *
    simp only [scriptLines_append, offered_append]
    omega
  quiet h := .of_eq (Prod.mk.inj h).1 rfl
  log s e he := .unscripted rfl fun e' he' ↦ by
    obtain rfl := List.mem_singleton.mp he'
    cases e' with
    | script | scriptLine | left | elevated => cases he
    | _ => exact ⟨rfl, rfl, nofun⟩
  apply cmd args s := .unscripted rfl fun e he ↦ by
    obtain ⟨c, -, rfl⟩ := List.mem_map.mp he
    exact ⟨rfl, rfl, nofun⟩
  switchUser user s := .of_eq rfl rfl
  rejoin h := h
  elevated {s t} h := by
    have hend : Logged Booked t (t.log (.elevated s.username t.username)) := .event rfl nofun
    exact h.trans hend fun a b ha hb ↦ Booked.append ha hb
  elevatedStops h := h
  script hlen h := h.script hlen
  left {lines rest line s t u} hlen h hline hu := by
    have hline' : Logged (fun tr ↦ scriptLines tr + abandoned tr = offered tr + 1) t u :=
      hu.line fun tr htr ↦ by
        rw [Booked] at htr
        simp
        omega
    have hend : Logged (fun tr ↦ scriptLines tr + abandoned tr = offered tr + runnable rest) u
        (u.log (.left rest)) := .event (by simp) nofun
    have hrest : Logged (fun tr ↦ scriptLines tr + abandoned tr = offered tr + 1 + runnable rest) t
        (u.log (.left rest)) := hline'.trans hend fun a b ha hb ↦ by
      simp only [scriptLines_append, abandoned_append, offered_append]
      omega
    refine (h.script hlen).trans hrest ?_
    · intro a b ha hb
      rw [runnable_cons, if_pos hline] at ha
      simp only [Booked, scriptLines_append, abandoned_append, offered_append]
      omega
  scriptStops hlen h hline hu := by
    refine (h.script hlen).trans (hu.line (Q := fun tr ↦ scriptLines tr ≤ offered tr + 1) ?_) ?_
    · intro tr htr
      rw [Covered] at htr
      simp
      omega
    · intro a b ha hb
      rw [runnable_cons, if_pos hline] at ha
      simp only [Covered, scriptLines_append, offered_append]
      omega

/-! ### The lines of an input -/

/-- A command line of one command that is read as it stands. -/
structure Simple (line : Str) (argv : List Str) : Prop where
  comment : stripComment line = line
  heredoc : splitHeredoc line = none
  segments : splitSegments line = [⟨.always, line⟩]
  notBlank : Text.trim line ≠ []
  stages : splitPipeline line = [line]
  redirects : splitRedirects line = .ok (line, [])
  plain : line.all isPlain
  words : tokenize line = argv
  command : argv ≠ []

/-- A session in the root of a filesystem, at some nesting, that holds no stderr. -/
structure Placed (vfs : Vfs) (k : ℕ) (s : Shell) : Prop where
  files : s.vfs = vfs
  cwd : s.cwd = vfs.root
  nesting : s.nesting = k
  held : s.substStderr = []

/-- From `s` to `t`, `n` script lines were run. -/
def Counted (vfs : Vfs) (k n : ℕ) (s t : Shell) : Prop :=
  Placed vfs k t ∧ scriptLines t.trace = scriptLines s.trace + n

/-- The line runs `n` script lines, prints nothing and ends. -/
def RunsLines (m : Run Output) (vfs : Vfs) (k n : ℕ) : Prop :=
  ∀ s, Placed vfs k s → ensures (fun _ _ ↦ False) m
    (fun out t ↦ Counted vfs k n s t ∧ out.stdout = [] ∧ out.stderr = [] ∧ out.exit = false) s

section Simple

variable {host : Host} {below : Level} {vfs : Vfs} {k n m : ℕ} {line : Str} {argv : List Str}
  {s : Shell}

/-- A change that leaves the counts alone. -/
theorem Counted.quiet {t u : Shell} (h : Counted vfs k n s t) (hfiles : u.vfs = t.vfs)
    (hcwd : u.cwd = t.cwd) (hnesting : u.nesting = t.nesting)
    (hheld : u.substStderr = t.substStderr) (htrace : scriptLines u.trace = scriptLines t.trace) :
    Counted vfs k n s u :=
  ⟨⟨hfiles.trans h.1.files, hcwd.trans h.1.cwd, hnesting.trans h.1.nesting,
    hheld.trans h.1.held⟩, htrace.trans h.2⟩

theorem Counted.after {t u : Shell} (h : Counted vfs k n s t) (h' : Counted vfs k m t u) :
    Counted vfs k (n + m) s u := ⟨h'.1, by rw [h'.2, h.2, Nat.add_assoc]⟩

theorem Placed.counted (h : Placed vfs k s) : Counted vfs k 0 s s := ⟨h, rfl⟩

/-- The one stage of a command line that prints nothing. -/
theorem runStage_counted (hd : ∀ s, Placed vfs k s → ensures (fun _ _ ↦ False)
      (dispatch host below argv)
      (fun r t ↦ Counted vfs k n s t ∧ r.output = [] ∧ r.stderr = [] ∧ r.exit = false) s)
    (piped : Option Str) (hs : Placed vfs k s) :
    ensures (fun _ _ ↦ False) (runStage host below argv .empty piped true)
      (fun r t ↦ Counted vfs k n s t ∧ r.output = [] ∧ r.stderr = [] ∧ r.exit = false) s := by
  rw [runStage]
  simp only [ensures_bind, ensures_modify, ensures_get, ensures_set, ensures_pure,
    routeOutput_empty]
  have hran := hs.counted.quiet (u := { s with
    stdin := piped
    stdoutIsTty := true && Sinks.empty.stdout.isNone && s.substDepth == 0 }.log
      (.ran s.nesting argv piped)) rfl rfl rfl rfl (by simp [Shell.log])
  refine ensures_mono (fun _ _ h ↦ h) (fun r t h ↦ ⟨?_, h.2⟩) (hd _ hran.1)
  have hcount := hran.after h.1
  rw [Nat.zero_add] at hcount
  exact hcount.quiet rfl rfl rfl rfl (by simp [Shell.log])

/-- The pipeline of a command line that prints nothing. -/
theorem Simple.runPipeline_counted (h : Simple line argv)
    (hd : ∀ s, Placed vfs k s → ensures (fun _ _ ↦ False) (dispatch host below argv)
      (fun r t ↦ Counted vfs k n s t ∧ r.output = [] ∧ r.stderr = [] ∧ r.exit = false) s)
    (hs : Placed vfs k s) :
    ensures (fun _ _ ↦ False) (runPipeline host below line)
      (fun r t ↦ Counted vfs k n s t ∧ ∃ status, r = some ⟨[], [], status, false⟩) s := by
  rw [runPipeline]
  simp only [ensures_bind, ensures_get, ensures_set]
  rw [h.stages, stagesLoop, h.redirects]
  simp only [ensures_bind]
  refine ensures_of_ok (parseLine_plain host below h.plain _) ?_
  rw [h.words]
  simp only [openRedirects, takeSubstStderr, ensures_pure, ensures_bind, ensures_get, ensures_set,
    if_neg h.command]
  have hbegun := hs.counted.quiet (u := { (s.withHeredoc none).log
    (.pipeline s.nesting s.heredocStdin) with substStderr := [] }) rfl rfl rfl hs.held.symm
    (by simp [Shell.log, Shell.withHeredoc])
  refine ensures_mono (fun _ _ h ↦ h) ?_ (runStage_counted hd s.heredocStdin hbegun.1)
  rintro ⟨output, stderr, status, exit⟩ t ⟨ht, rfl, rfl, rfl⟩
  refine ⟨Nat.zero_add n ▸ hbegun.after ht, status, ?_⟩
  have hheld : ((s.withHeredoc none).log (.pipeline s.nesting s.heredocStdin)).substStderr = [] :=
    hs.held
  rw [hheld]
  rfl

/-- A command line of one command that prints nothing. -/
theorem Simple.runsLines (h : Simple line argv)
    (hd : ∀ s, Placed vfs k s → ensures (fun _ _ ↦ False) (dispatch host below argv)
      (fun r t ↦ Counted vfs k n s t ∧ r.output = [] ∧ r.stderr = [] ∧ r.exit = false) s) :
    RunsLines (execute host below line) vfs k n := by
  have hloop : ∀ s, Placed vfs k s → ensures (fun _ _ ↦ False)
      (segmentsLoop host below .empty 0 false [⟨.always, line⟩])
      (fun out t ↦ Counted vfs k n s t ∧ out.stdout = [] ∧ out.stderr = [] ∧ out.exit = false)
      s := by
    intro s hs
    rw [segmentsLoop, if_neg h.notBlank]
    refine ensures_bind.mpr (ensures_mono (fun _ _ h ↦ h) ?_ (h.runPipeline_counted hd hs))
    rintro _ t ⟨ht, status, rfl⟩
    exact ⟨ht.quiet rfl rfl rfl rfl rfl, rfl, rfl, rfl⟩
  intro s hs
  rw [execute]
  simp only [ensures_bind, ensures_modify, ensures_get, h.comment, h.heredoc, h.segments]
  have hbegun : Placed vfs k (s.withCaptures []) := ⟨hs.files, hs.cwd, hs.nesting, hs.held⟩
  split
  · exact hloop _ ⟨hs.files, hs.cwd, hs.nesting, rfl⟩
  · exact hloop _ hbegun

/-- The lines of a script that are all the same. -/
theorem scriptLoop_counted (hrun : RunsLines (below.execute line) vfs k n)
    (htrim : Text.trim line = line) (hline : isScriptCommand line) (collected : List Capture)
    (status : ℤ) (hs : Placed vfs k s) :
    ensures (fun _ _ ↦ False)
      (scriptLoop below collected [] [] status (List.replicate m line))
      (fun r t ↦ Counted vfs k (m * (n + 1)) s t ∧ r.output = [] ∧ r.stderr = [] ∧ r.exit = false)
      s := by
  induction m generalizing collected status s with
  | zero =>
    rw [List.replicate_zero, scriptLoop, ensures_bind, ensures_modify, ensures_pure]
    rw [Nat.zero_mul]
    exact ⟨hs.counted.quiet rfl rfl rfl rfl rfl, rfl, rfl, rfl⟩
  | succ m ih =>
    rw [List.replicate_succ, scriptLoop]
    simp only
    rw [if_neg hline, htrim]
    simp only [ensures_bind, ensures_modify, ensures_get, ensures_set]
    have hlogged : Placed vfs k (s.log (.scriptLine line)) :=
      ⟨hs.files, hs.cwd, hs.nesting, hs.held⟩
    refine ensures_mono (fun _ _ h ↦ h) ?_ (hrun _ hlogged)
    rintro ⟨text, _, _, status, _⟩ t ⟨ht, rfl, rfl, rfl⟩
    have hsmall : ¬ (false = true ∨ Text.byteLen ([] ++ []) + Text.byteLen ([] ++ []) >
      maxCommandOutputBytes) := by decide
    dsimp only
    rw [if_neg hsmall]
    have ht' : Counted vfs k (n + 1) s
        ((t.withCaptures []).log (.captured (.scriptCommand line status))) :=
      ⟨⟨ht.1.files, ht.1.cwd, ht.1.nesting, ht.1.held⟩, by
        simp [Shell.withCaptures, Shell.log, ht.2]
        omega⟩
    refine ensures_mono (fun _ _ h ↦ h) ?_ (ih _ _ ht'.1)
    rintro r u ⟨hu, hr⟩
    refine ⟨?_, hr⟩
    rw [Nat.succ_mul, Nat.add_comm]
    exact ht'.after hu

/-- `sh` with a script whose lines are all the same. -/
theorem dispatch_sh_counted {name : Str} (id : NodeId) (bytes : Bytes) (line : Str)
    (hresolve : vfs.resolve vfs.root name = some id)
    (hbytes : (vfs.node id).fileBytes host.now = some bytes)
    (hlines : Text.lines (Text.fromUtf8Lossy bytes) = List.replicate m line)
    (hm : m ≤ maxScriptLines) (hname : name ≠ "-c".toList) (hdash : name.head? ≠ some '-')
    (htrim : Text.trim line = line) (hline : isScriptCommand line) (hk : k < maxNestedCommands)
    (hrun : RunsLines (below.execute line) vfs (k + 1) n) (hs : Placed vfs k s) :
    ensures (fun _ _ ↦ False) (dispatch host below ["sh".toList, name])
      (fun r t ↦ Counted vfs k (m * (n + 1)) s t ∧ r.output = [] ∧ r.stderr = [] ∧ r.exit = false)
      s := by
  have hinner : dispatchInner host below ["sh".toList, name] =
    CommandResult.truncate <$> shellCmd host below [name] := rfl
  have hnest : ¬ s.nesting ≥ maxNestedCommands := by
    rw [hs.nesting]
    exact Nat.not_le_of_lt hk
  have hs' : Placed vfs (k + 1) (s.atDepth (s.nesting + 1) s.substDepth) :=
    ⟨hs.files, hs.cwd, congrArg (· + 1) hs.nesting, hs.held⟩
  have hscript : ensures (fun _ _ ↦ False) (shellCmd host below [name])
      (fun r t ↦ Counted vfs (k + 1) (m * (n + 1)) (s.atDepth (s.nesting + 1) s.substDepth) t ∧
        r.output = [] ∧ r.stderr = [] ∧ r.exit = false)
      (s.atDepth (s.nesting + 1) s.substDepth) := by
    rw [shellCmd, if_neg hname, if_neg hdash]
    simp only [ensures_bind, ensures_get]
    rw [hs'.files, hs'.cwd, hresolve]
    simp only [hbytes]
    rw [runScript, hlines, List.take_of_length_le (by simpa using hm)]
    simp only [ensures_bind, ensures_get, ensures_set]
    refine ensures_mono (fun _ _ h ↦ h) ?_ (scriptLoop_counted hrun htrim hline _ 0
      ⟨hs'.files, hs'.cwd, hs'.nesting, hs'.held⟩)
    rintro r t ⟨ht, hr⟩
    refine ⟨⟨ht.1, ht.2.trans ?_⟩, hr⟩
    simp [Shell.log, Shell.withCaptures]
  rw [dispatch]
  simp only [enter, ensures_bind, ensures_get, if_neg hnest, ensures_modify, hinner, ensures_map,
    ensures_pure]
  refine ensures_mono (fun _ _ h ↦ h) ?_ hscript
  rintro ⟨_, _, status, _⟩ t ⟨ht, rfl, rfl, rfl⟩
  refine ⟨⟨⟨ht.1.files, ht.1.cwd, ?_, ht.1.held⟩, ?_⟩, rfl, rfl, rfl⟩
  · exact congrArg (· - 1) ht.1.nesting
  · simpa [Shell.atDepth, Shell.log] using ht.2

end Simple

/-! A script `/f` of 65 lines that run a script `/g` of 64 lines. -/

/-- The text of `/g` and of `/f`. -/
def scriptBytes (line : Str) (n : ℕ) : Bytes :=
  (List.replicate n (Text.toUtf8 (line ++ ['\n']))).flatten

def scriptFiles : Vfs :=
  let vfs := ((Vfs.new 0).addFile 0 0 ['g'] (scriptBytes "true".toList 64) 0o644 0 0).1
  (vfs.addFile 0 0 ['f'] (scriptBytes "sh g".toList 65) 0o644 0 0).1

theorem simple_true : Simple "true".toList ["true".toList] :=
  ⟨by decide, by decide, by decide, by decide, by decide, by decide, by decide, by decide,
    by decide⟩

theorem simple_g : Simple "sh g".toList ["sh".toList, ['g']] :=
  ⟨by decide, by decide, by decide, by decide, by decide, by decide, by decide, by decide,
    by decide⟩

theorem simple_f : Simple "sh f".toList ["sh".toList, ['f']] :=
  ⟨by decide, by decide, by decide, by decide, by decide, by decide, by decide, by decide,
    by decide⟩

/-- `true` at any nesting below the limit. -/
theorem true_runsLines (host : Host) (below : Level) (vfs : Vfs) {k : ℕ}
    (hk : k < maxNestedCommands) : RunsLines (execute host below "true".toList) vfs k 0 := by
  refine simple_true.runsLines fun s hs ↦ ?_
  have hnest : ¬ s.nesting ≥ maxNestedCommands := by
    rw [hs.nesting]
    exact Nat.not_le_of_lt hk
  rw [dispatch]
  simp only [enter, ensures_bind, ensures_get, if_neg hnest, ensures_modify]
  exact ⟨hs.counted.quiet rfl rfl rfl rfl (by simp [Shell.atDepth, Shell.log]), rfl, rfl, rfl⟩

theorem g_runsLines : RunsLines (execute bareHost (level bareHost 15) "sh g".toList) scriptFiles 1
    64 := by
  refine simple_g.runsLines fun s hs ↦ ?_
  exact dispatch_sh_counted (m := 64) (n := 0) 1 (scriptBytes "true".toList 64)
    "true".toList (by decide +kernel) (by decide +kernel) (by decide +kernel)
    (by decide) (by decide) (by decide) (by decide +kernel) (by decide +kernel) (by decide)
    (true_runsLines bareHost (level bareHost 14) scriptFiles (by decide)) hs

theorem f_runsLines : RunsLines (execute bareHost (levels bareHost) "sh f".toList) scriptFiles 0
    (65 * 65) := by
  refine simple_f.runsLines fun s hs ↦ ?_
  exact dispatch_sh_counted (m := 65) (n := 64) 2 (scriptBytes "sh g".toList 65)
    "sh g".toList (by decide +kernel) (by decide +kernel) (by decide +kernel)
    (by decide) (by decide) (by decide) (by decide +kernel) (by decide +kernel) (by decide)
    g_runsLines hs

/-- A line as an input, in a session that has logged nothing. -/
theorem RunsLines.process {host : Host} {line : Str} {vfs : Vfs} {k n : ℕ} {s : Shell}
    (h : RunsLines (execute host (levels host) line) vfs k n) (hs : Placed vfs k s)
    (htrace : s.trace = []) : ((Input.line line).process host s).1.isOk ∧
      scriptLines ((Input.line line).process host s).2.trace = n := by
  have hrun : ensures (fun _ _ ↦ False) ((Input.line line).process host)
      (fun _ t ↦ scriptLines t.trace = n) s := by
    rw [Input.process, ensures_map]
    refine ensures_mono (fun _ _ h ↦ h) ?_ (h s hs)
    rintro out t ⟨ht, -⟩
    rw [ht.2, htrace, scriptLines_nil, Nat.zero_add]
  rcases hx : (Input.line line).process host s with ⟨e | out, t⟩
  · exact (ensures_error hx hrun).elim
  · have hlines := ensures_ok hx hrun
    exact ⟨rfl, hlines⟩

/-- Root's session on a filesystem. -/
def sessionOn (vfs : Vfs) : Shell := { Shell.bare with vfs := vfs }

theorem placed_sessionOn {vfs : Vfs} (h : vfs.root = 0) : Placed vfs 0 (sessionOn vfs) :=
  ⟨rfl, h.symm, rfl, rfl⟩

end Interp

end Mimic
