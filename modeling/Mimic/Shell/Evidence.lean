import Mimic.Shell.Heredoc

/-!
# The captures of an input

What a session captures while it processes an input of the client is to be found in its captures
when the call returns, once. There is one way to lose some: a command line drops the captures it
finds, and the body of a here-document is expanded in front of the line it belongs to.
-/

namespace Mimic

namespace Interp

open Mimic.Parser Outcomes

/-- What a client sends to a session. -/
inductive Input
  /-- A command line. -/
  | line (text : Str)
  /-- The answer to a prompt, or a line of a here-document. -/
  | answer (text : Str)
  /-- The end of its input. -/
  | eof

/-- Process an input. -/
def Input.process (host : Host) : Input → Run (Option Output)
  | line text => some <$> execute host (levels host) text
  | answer text => some <$> resume host text
  | eof => finishHeredocAtEof host

/-- Whether an input ends the body of a here-document. -/
def Input.closes (doc : Heredoc) : Input → Prop
  | line _ => False
  | answer text => Heredoc.line doc text = doc.delimiter
  | eof => True

/-- From `s` to `t`, every capture pushed is there, once, next to some of those that were there. -/
def Conserved (s t : Shell) : Prop :=
  ∃ tr, t.trace = s.trace ++ tr ∧
    ∃ kept, List.Sublist kept s.captures ∧ t.captures.Perm (kept ++ captured tr)

/-- An input ends the body of a here-document, and expanding the body pushes captures. -/
def ExpansionCaptures (host : Host) (input : Input) (s : Shell) : Prop :=
  ∃ command raw doc body, s.pending = some (.heredoc command raw doc body) ∧ input.closes doc ∧
    ∃ text u tr, heredocText host doc body (s.closing raw doc body) = (.ok text, u) ∧
      u.trace = s.trace ++ tr ∧ captured tr ≠ []

section Conserved

variable {host : Host} {s t u : Shell}

/-- A log says what was captured. -/
theorem conserved_iff {tr : List Event} (h : t.trace = s.trace ++ tr) : Conserved s t ↔
    ∃ kept, List.Sublist kept s.captures ∧ t.captures.Perm (kept ++ captured tr) := by
  constructor
  · rintro ⟨tr', h', hkept⟩
    rwa [List.append_cancel_left (h.symm.trans h')]
  · exact fun hkept ↦ ⟨tr, h, hkept⟩

/-- New captures behind the old ones. -/
theorem conserved_of_append (cs : List Capture) (htr : t.trace = s.trace ++ cs.map .captured)
    (hcs : t.captures = s.captures ++ cs) : Conserved s t := by
  refine ⟨_, htr, s.captures, List.Sublist.refl _, ?_⟩
  rw [captured_map, hcs]

theorem conserved_of_eq (htr : t.trace = s.trace) (hcs : t.captures = s.captures) : Conserved s t :=
  conserved_of_append [] (htr.trans (List.append_nil _).symm) (hcs.trans (List.append_nil _).symm)

theorem execute_conserved {line : Str} {out : Output}
    (h : execute host (levels host) line s = (.ok out, t)) : Conserved s t := by
  have hrun : Runs s.nesting s.begun (execute host (levels host) line) s :=
    execute_runs (levels_lawful host s.nesting) line s rfl
  obtain ⟨tr, ht⟩ := ensures_ok h hrun
  exact ⟨tr, ht.trace, [], List.nil_sublist _, ht.captures⟩

/-- A here-document keeps all captures exactly if expanding its body pushes none. -/
theorem runHeredoc_conserved_iff {command raw body : Str} {doc : Heredoc} {out : Output}
    (h : runHeredoc host command raw doc body s = (.ok out, t)) :
    ∃ text u tr, heredocText host doc body (s.closing raw doc body) = (.ok text, u) ∧
      u.trace = s.trace ++ tr ∧ (Conserved s t ↔ captured tr = []) := by
  rw [runHeredoc_eq] at h
  rcases htext : heredocText host doc body (s.closing raw doc body) with ⟨e | text, u⟩
  · rw [htext] at h
    cases h
  rw [htext] at h
  dsimp only at h
  rcases hline : execute host (levels host) command (u.withHeredoc (some text)) with ⟨e | out', v⟩
  · rw [hline] at h
    cases h
  rw [hline] at h
  obtain rfl : v.withHeredoc none = t := (Prod.mk.inj h).2
  obtain ⟨tr, hu⟩ := ensures_ok htext (heredocText_runs host doc body _)
  refine ⟨text, u, tr, rfl, hu.trace, ?_⟩
  have hrun : Runs u.nesting (u.withHeredoc (some text)).begun (execute host (levels host) command)
      (u.withHeredoc (some text)) := execute_runs (levels_lawful host u.nesting) command _ rfl
  obtain ⟨tr', hv⟩ := ensures_ok hline hrun
  have hcaptures : v.captures.Perm (captured tr') := hv.captures
  have htrace : (v.withHeredoc none).trace = s.trace ++ (tr ++ tr') := by
    rw [← List.append_assoc]
    exact hv.trace.trans (congrArg (· ++ tr') hu.trace)
  rw [conserved_iff htrace, captured_append]
  constructor
  · rintro ⟨kept, -, hperm⟩
    -- the line has left no more than its own captures
    have hlen := (hcaptures.symm.trans hperm).length_eq
    simp only [List.length_append] at hlen
    exact List.length_eq_zero_iff.mp (by omega)
  · intro hnone
    rw [hnone]
    exact ⟨[], List.nil_sublist _, hcaptures⟩

/-! ### Prompts -/

theorem writeText_frame (host : Host) (s : Shell) (path text : Str) :
    (writeText host s path text).trace = s.trace ∧
      (writeText host s path text).captures = s.captures := by
  rw [writeText]
  split
  · exact ⟨rfl, rfl⟩
  · split
    · exact ⟨rfl, rfl⟩
    · split <;> exact ⟨rfl, rfl⟩

/-- A prompt of a command is answered. -/
theorem resume_conserved {input : Str} {out : Output}
    (hprompt : ∀ command raw doc body, s.pending ≠ some (.heredoc command raw doc body))
    (h : resume host input s = (.ok out, t)) : Conserved s t := by
  rw [resume, bind_apply] at h
  replace h : (set (s.withPending none) >>= fun _ ↦ _ : Run Output) s = (.ok out, t) := h
  rw [bind_apply] at h
  rcases hp : s.pending with _ | ⟨target⟩ | ⟨target, _ | first⟩ | ⟨command, raw, doc, body⟩ <;>
    simp only [hp] at h
  · obtain rfl := (Prod.mk.inj h).2
    exact conserved_of_eq rfl rfl
  · obtain rfl := (Prod.mk.inj h).2
    exact conserved_of_append [_] rfl rfl
  · obtain rfl := (Prod.mk.inj h).2
    exact conserved_of_eq rfl rfl
  · replace h : (if first ≠ input then pure _ else _ : Run Output) (s.withPending none) =
        (.ok out, t) := h
    split at h
    · obtain rfl := (Prod.mk.inj h).2
      exact conserved_of_eq rfl rfl
    · obtain rfl := (Prod.mk.inj h).2
      obtain ⟨htr, hcs⟩ := writeText_frame host ((s.withPending none).pushCapture
        (.passwordChange target first)) _ _
      exact conserved_of_append [_] htr hcs
  · exact absurd hp (hprompt command raw doc body)

end Conserved

/-! ### Inputs -/

section Inputs

variable {host : Host} {input : Input} {s t : Shell} {command raw body : Str} {doc : Heredoc}

/-- Where an input ends a body, the captures of the expansion are the ones in the log. -/
theorem expansionCaptures_iff {text : Str} {u : Shell} {tr : List Event}
    (hpending : s.pending = some (.heredoc command raw doc body)) (hcloses : input.closes doc)
    (htext : heredocText host doc body (s.closing raw doc body) = (.ok text, u))
    (htr : u.trace = s.trace ++ tr) : ExpansionCaptures host input s ↔ captured tr ≠ [] := by
  constructor
  · rintro ⟨command', raw', doc', body', hpending', -, text', u', tr', htext', htr', hcaptured⟩
    obtain ⟨rfl, rfl, rfl, rfl⟩ : command = command' ∧ raw = raw' ∧ doc = doc' ∧ body = body' := by
      simpa using hpending.symm.trans hpending'
    obtain rfl : u = u' := (Prod.mk.inj (htext.symm.trans htext')).2
    rwa [List.append_cancel_left (htr.symm.trans htr')]
  · exact fun hcaptured ↦
      ⟨command, raw, doc, body, hpending, hcloses, text, u, tr, htext, htr, hcaptured⟩

/-- The end of the input ends a body. -/
theorem finishHeredocAtEof_closes {out : Option Output}
    (hpending : s.pending = some (.heredoc command raw doc body))
    (h : finishHeredocAtEof host s = (.ok out, t)) :
    ∃ out, runHeredoc host command raw doc body (s.withPending none) = (.ok out, t) := by
  rw [finishHeredocAtEof, bind_apply] at h
  replace h : (set (s.withPending none) >>= fun _ ↦ _ : Run (Option Output)) s = (.ok out, t) := h
  rw [bind_apply] at h
  simp only [hpending] at h
  replace h : (runHeredoc host command raw doc body >>= fun _ ↦ _ : Run (Option Output))
    (s.withPending none) = (.ok out, t) := h
  obtain ⟨out', u, hrun, hu⟩ := bind_eq_ok h
  obtain rfl := (Prod.mk.inj hu).2
  exact ⟨out', hrun⟩

theorem finishHeredocAtEof_conserved {out : Option Output}
    (hprompt : ∀ command raw doc body, s.pending ≠ some (.heredoc command raw doc body))
    (h : finishHeredocAtEof host s = (.ok out, t)) : Conserved s t := by
  rw [finishHeredocAtEof, bind_apply] at h
  replace h : (set (s.withPending none) >>= fun _ ↦ _ : Run (Option Output)) s = (.ok out, t) := h
  rw [bind_apply] at h
  rcases hp : s.pending with _ | ⟨target⟩ | ⟨target, first⟩ | ⟨command, raw, doc, body⟩ <;>
    simp only [hp] at h
  iterate 3
    obtain rfl := (Prod.mk.inj h).2
    exact conserved_of_eq rfl rfl
  exact absurd hp (hprompt command raw doc body)

/-- An input that ends a body. -/
theorem closed_conserved_iff {out : Output}
    (hpending : s.pending = some (.heredoc command raw doc body)) (hcloses : input.closes doc)
    (h : runHeredoc host command raw doc body (s.withPending none) = (.ok out, t)) :
    Conserved s t ↔ ¬ ExpansionCaptures host input s := by
  obtain ⟨text, u, tr, htext, htr, hiff⟩ := runHeredoc_conserved_iff h
  rw [expansionCaptures_iff hpending hcloses htext htr, not_not]
  exact hiff

/-- An input that ends no body. -/
theorem not_expansionCaptures
    (h : ∀ command raw doc body, s.pending = some (.heredoc command raw doc body) →
      ¬ input.closes doc) :
    ¬ ExpansionCaptures host input s := by
  rintro ⟨command, raw, doc, body, hpending, hcloses, -⟩
  exact h command raw doc body hpending hcloses

end Inputs

/-- **Conservation of captures.** When a call returns, every capture pushed since it was made is
there, once, unless the input ended the body of a here-document and expanding the body pushed
captures. -/
theorem captures_conserved_iff {host : Host} {input : Input} {s t : Shell} {out : Option Output}
    (h : input.process host s = (.ok out, t)) :
    Conserved s t ↔ ¬ ExpansionCaptures host input s := by
  cases input with
  | line text =>
    obtain ⟨out', h⟩ := map_eq_ok h
    exact iff_of_true (execute_conserved h) (not_expansionCaptures fun _ _ _ _ _ ↦ id)
  | answer text =>
    obtain ⟨out', h⟩ := map_eq_ok h
    by_cases hp : ∃ command raw doc body, s.pending = some (.heredoc command raw doc body)
    · obtain ⟨command, raw, doc, body, hp⟩ := hp
      by_cases hline : Heredoc.line doc text = doc.delimiter
      · rw [resume_delimiter hp hline] at h
        exact closed_conserved_iff hp hline h
      · rw [resume_line hp hline] at h
        obtain rfl := (Prod.mk.inj h).2
        refine iff_of_true (conserved_of_eq rfl rfl) (not_expansionCaptures ?_)
        rintro command' raw' doc' body' hp' hcloses
        obtain ⟨-, -, rfl, -⟩ : command = command' ∧ raw = raw' ∧ doc = doc' ∧ body = body' := by
          simpa using hp.symm.trans hp'
        exact hline hcloses
    · push Not at hp
      exact iff_of_true (resume_conserved hp h)
        (not_expansionCaptures fun command raw doc body hpending ↦
          absurd hpending (hp command raw doc body))
  | eof =>
    by_cases hp : ∃ command raw doc body, s.pending = some (.heredoc command raw doc body)
    · obtain ⟨command, raw, doc, body, hp⟩ := hp
      obtain ⟨out', h⟩ := finishHeredocAtEof_closes hp h
      exact closed_conserved_iff hp trivial h
    · push Not at hp
      exact iff_of_true (finishHeredocAtEof_conserved hp h)
        (not_expansionCaptures fun command raw doc body hpending ↦
          absurd hpending (hp command raw doc body))

theorem captures_conserved_line :
    Conserved Shell.bare ((Input.line "true".toList).process bareHost Shell.bare).2 := by
  have hok : ((Input.line "true".toList).process bareHost Shell.bare).1.isOk := by decide +kernel
  rcases hx : (Input.line "true".toList).process bareHost Shell.bare with ⟨e | out, t⟩
  · rw [hx] at hok
    cases hok
  · refine (captures_conserved_iff hx).mpr ?_
    rintro ⟨command, raw, doc, body, hpending, -⟩
    cases hpending

/-- A session with a script `/f`, and a here-document whose body runs it. -/
def scripted : Shell :=
  { Shell.bare with
    vfs := ((Vfs.new 0).addFile 0 0 ['f'] (Text.toUtf8 "true\n".toList) 0o644 0 0).1
    pending := some (.heredoc "true ".toList "true <<E".toList ⟨['E'], false, true⟩
      "$(sh /f)\n".toList) }

/-- The script line that the body ran is logged nowhere. -/
theorem body_capture_lost : ((Input.answer ['E']).process bareHost scripted).1.isOk ∧
    ¬ Conserved scripted ((Input.answer ['E']).process bareHost scripted).2 := by
  refine ⟨by decide +kernel, ?_⟩
  rintro ⟨tr, htr, kept, -, hperm⟩
  have hpushed : captured ((Input.answer ['E']).process bareHost scripted).2.trace =
      [.scriptCommand "true".toList 0] := by decide +kernel
  have hleft : ((Input.answer ['E']).process bareHost scripted).2.captures = [] := by decide +kernel
  obtain rfl : ((Input.answer ['E']).process bareHost scripted).2.trace = tr := htr
  rw [hpushed, hleft] at hperm
  simpa using hperm.length_eq

end Interp

end Mimic
