import Mimic.Network.ChannelIsolation
import Mimic.Network.Keystrokes
import Mimic.Shell.Evidence

/-!
# Typing a password

While the shell waits for a password, what is typed is collected in `password_buf`, which the
handler sets behind the line that has left the shell waiting. A line that opens a display as well
has the terminal taken by the display first, and when the display quits the prompt is drawn: what is
typed then is a line. Where no line does both, the buffer is there exactly while the shell waits
(`passwords_apart`), and what is typed into it is not treated as a line (`Quiet`).
-/

namespace Mimic

namespace Connection

open Interp Outcomes GuardedRun

namespace MimicHandler

/-- The shell waits for a password. -/
def prompting (h : MimicHandler) : Bool :=
  h.shell.any fun s ↦ s.pending.any fun p ↦ !p.echoes

/-- The shell waits for a password while a display is up. -/
def crossed (h : MimicHandler) : Bool := h.screen.isSome && h.prompting

/-- Input is collected exactly while the shell waits for a password. -/
def Mirrors (h : MimicHandler) : Prop := h.passwordBuf.isSome = h.prompting

end MimicHandler

open MimicHandler

/-- The input side of a connection is in step with its shell. -/
structure InStep (h : MimicHandler) : Prop where
  mirrors : h.pty = true → h.Mirrors
  crossed : h.crossed = false
  lines : h.pty = false → h.passwordBuf = none ∧ h.screen = none

/-- A call after which no display is up while the shell waits for a password, whatever part of the
bytes has come, and which does not ask for a terminal while the shell waits for one. -/
structure Apart (config : Config) (e : Event) (h : MimicHandler) : Prop
    extends Orderly config e h where
  terminal : ∀ term colWidth rowHeight, e.call = .ptyRequest term colWidth rowHeight →
    h.pty = true ∨ h.prompting = false
  display : ∀ bytes, e.call = .data bytes → ∀ a, a <+: bytes →
    (data config e.host e.channel a h.flushed).2.crossed = false

section Bytes

variable {config : Config} {host : Host} {channel : UInt32} {h t : MimicHandler}

variable (config host) in
theorem any_theShell (h : MimicHandler) :
    (h.theShell config host).pending.any (fun p ↦ !p.echoes) = h.prompting := by
  rw [MimicHandler.theShell, prompting]
  rcases h.shell with - | s <;> rfl

theorem prompting_built (h : MimicHandler) : (h.built config host).prompting = h.prompting :=
  any_theShell config host h

theorem prompting_completeCurrentWord (h : MimicHandler) :
    (h.completeCurrentWord config host channel).prompting = h.prompting := by
  rw [MimicHandler.completeCurrentWord]
  split <;> exact prompting_built h

theorem mirrors_of_settle (hbuf : h.passwordBuf = none) :
    (h.settle config host channel).crossed = true ∨ (h.settle config host channel).Mirrors := by
  have hpending := any_theShell config host h
  rw [MimicHandler.settle]
  generalize hshell : h.theShell config host = shell at hpending ⊢
  split
  · rename_i screen hscreen
    have hheld : ∀ t : MimicHandler,
        (t.holdScreen config host channel screen).screen.isSome = true ∧
          (t.holdScreen config host channel screen).passwordBuf = t.passwordBuf ∧
          (t.holdScreen config host channel screen).prompting = t.prompting := by
      intro t
      cases screen <;> exact ⟨rfl, rfl, rfl⟩
    obtain ⟨hup, hbuf', hprompting⟩ :=
      hheld { h.built config host with shell := some { shell with screen := none } }
    rw [MimicHandler.crossed, MimicHandler.Mirrors, hup, hbuf', hprompting]
    show (true && shell.pending.any fun p ↦ !p.echoes) = true ∨
      h.passwordBuf.isSome = shell.pending.any fun p ↦ !p.echoes
    rw [hbuf]
    generalize (shell.pending.any fun p ↦ !p.echoes) = waits
    cases waits with
    | false => exact .inr rfl
    | true => exact .inl rfl
  · split
    · rename_i hnone
      refine .inr ?_
      show h.passwordBuf.isSome = ((h.built config host).built config host).prompting
      rw [prompting_built, prompting_built, ← hpending, hnone, hbuf]
      rfl
    · rename_i pending hsome
      rw [hsome] at hpending
      split
      · rename_i hechoes
        refine .inr ?_
        show h.passwordBuf.isSome = (h.built config host).prompting
        rw [prompting_built, ← hpending, hbuf, Option.any_some, hechoes]
        rfl
      · rename_i hechoes
        refine .inr ?_
        show true = (h.built config host).prompting
        rw [prompting_built, ← hpending, Option.any_some]
        simpa using hechoes

/-- A line that does not end the session. -/
theorem mirrors_of_submitted {line : Str} (hbuf : h.passwordBuf = none)
    (hrun : submitted config host channel line h = (.ok false, t)) :
    t.crossed = true ∨ t.Mirrors := by
  obtain ⟨shell, u, hu, hrun⟩ := bind_eq_ok hrun
  have hsame : SameInput h u := ensures_ok (Q := fun _ t ↦ SameInput h t) hu (Stays.onShell _ h)
  have hlast : ∀ {m : Act Bool}, Ends SameInput channel m →
      (m >>= fun ended ↦ if ended then pure true else
        modify (fun h ↦ h.settle config host channel) >>= fun _ ↦ pure false) u = (.ok false, t) →
      t.crossed = true ∨ t.Mirrors := by
    intro m hm hrun
    obtain ⟨ended, v, hv, hrun⟩ := bind_eq_ok hrun
    have hkept := ensures_ok hv (hm u)
    cases ended with
    | true => cases hrun
    | false =>
      cases hrun
      exact mirrors_of_settle ((hkept.passwordBuf.trans hsame.passwordBuf).trans hbuf)
  split at hrun
  · exact hlast (answer_ends config host channel line) hrun
  · exact hlast (submitLine_ends config host channel line) hrun

/-- A byte typed for a password. -/
theorem mirrors_of_inputPassword {typed : Bytes} {byte : UInt8} (hwaits : h.prompting = true)
    (hbuf : h.passwordBuf = some typed)
    (hrun : inputPassword config host channel typed byte h = (.ok false, t)) : t.Mirrors := by
  rw [inputPassword] at hrun
  split at hrun
  · obtain ⟨⟨⟩, u, hu, hrun⟩ := bind_eq_ok hrun
    obtain ⟨output, v, hv, hrun⟩ := bind_eq_ok hrun
    obtain ⟨ended, w, hw, hrun⟩ := bind_eq_ok hrun
    have huv : SameInput u v := ensures_ok (Q := fun _ t ↦ SameInput u t) hv (Stays.onShell _ u)
    have hvw := ensures_ok hw (deliver_ends config host channel output v)
    cases hu
    cases ended with
    | true => cases hrun
    | false =>
      have hnone : w.passwordBuf = none := hvw.passwordBuf.trans huv.passwordBuf
      obtain ⟨shell, x, hx, hrun⟩ := bind_eq_ok hrun
      cases hx
      have hwaiting := any_theShell config host w
      split at hrun
      · rename_i hpending
        cases hrun
        show true = (w.built config host).prompting
        rw [prompting_built]
        exact (hwaiting.symm.trans hpending).symm
      · rename_i hpending
        cases hrun
        show w.passwordBuf.isSome = ((w.built config host).built config host).prompting
        rw [prompting_built, prompting_built, hnone, ← hwaiting]
        exact (Bool.not_eq_true _).mp hpending |>.symm
  split at hrun
  · cases hrun
    rfl
  split at hrun
  · cases hrun
    exact hwaits.symm
  split at hrun
  · cases hrun
    exact hwaits.symm
  · cases hrun
    show h.passwordBuf.isSome = h.prompting
    rw [hbuf, hwaits]
    rfl

/-- **One byte.** -/
theorem mirrors_of_inputByte {byte : UInt8} (hh : h.Mirrors)
    (hrun : inputByte config host channel byte h = (.ok false, t)) :
    t.crossed = true ∨ t.Mirrors := by
  rw [inputByte_eq] at hrun
  rw [MimicHandler.Mirrors] at hh
  rcases hbuf : h.passwordBuf with - | typed <;> rw [hbuf] at hrun hh
  · dsimp only at hrun
    rw [inputLine_eq] at hrun
    generalize h.editor.input byte = reacted at hrun
    rcases reacted with ⟨- | bytes | ⟨echo, line⟩ | - | -, editor⟩
    · cases hrun
      exact .inr (by rw [MimicHandler.Mirrors]; exact (congrArg _ hbuf).trans hh)
    · cases hrun
      exact .inr (by rw [MimicHandler.Mirrors]; exact (congrArg _ hbuf).trans hh)
    · exact mirrors_of_submitted (by exact hbuf) hrun
    · cases hrun
    · cases hrun
      refine .inr ?_
      have hsame := sameInput_completeCurrentWord config host channel { h with editor := editor }
      rw [MimicHandler.Mirrors, hsame.passwordBuf, prompting_completeCurrentWord]
      exact (congrArg _ hbuf).trans hh
  · exact .inr (mirrors_of_inputPassword hh.symm hbuf hrun)

end Bytes

/-! ### Calls -/

section Calls

variable {config : Config} {host : Host} {channel : UInt32} {h t : MimicHandler}

theorem InStep.of_same (hh : InStep h) (hpty : t.pty = h.pty)
    (hbuf : t.passwordBuf = h.passwordBuf) (hscreen : t.screen = h.screen)
    (hprompting : t.prompting = h.prompting) : InStep t where
  mirrors hp := by
    rw [MimicHandler.Mirrors, hbuf, hprompting]
    exact hh.mirrors (hpty.symm.trans hp)
  crossed := by
    rw [MimicHandler.crossed, hscreen, hprompting]
    exact hh.crossed
  lines hp := by
    rw [hbuf, hscreen]
    exact hh.lines (hpty.symm.trans hp)

theorem inStep_of_released (ht : Released t) : InStep t := by
  rw [ht]
  exact ⟨nofun, rfl, fun _ ↦ ⟨rfl, rfl⟩⟩

theorem inStep_of_closed (ht : Closed channel h t) (hactive : h.activeChannel = some channel) :
    InStep t := inStep_of_released (ht.released hactive)

/-- **Typed bytes.** -/
theorem inStep_of_inputBytes {bytes : Bytes} (hactive : h.activeChannel = some channel)
    (hpty : h.pty = true) (hh : h.Mirrors)
    (hcrossed : ∀ a, a <+: bytes → (inputBytes config host channel a h).2.crossed = false)
    (hrun : inputBytes config host channel bytes h = (.ok (), t)) : InStep t := by
  induction bytes generalizing h with
  | nil =>
    have hdown := hcrossed [] List.nil_prefix
    rw [hrun] at hdown
    cases hrun
    exact ⟨fun _ ↦ hh, hdown, fun hp ↦ absurd hp (by rw [hpty]; exact nofun)⟩
  | cons byte bytes ih =>
    rw [inputBytes, bind_apply] at hrun
    have hbyte := inputByte_ends config host channel byte h
    rcases hr : inputByte config host channel byte h with ⟨e | ended, u⟩
    · rw [hr] at hrun
      cases hrun
    rw [hr] at hrun
    have hu := ensures_ok hr hbyte
    cases ended with
    | true =>
      cases hrun
      exact inStep_of_closed hu hactive
    | false =>
      have hrest : ∀ a, inputBytes config host channel (byte :: a) h =
          inputBytes config host channel a u := fun a ↦ by rw [inputBytes, bind_apply, hr]; rfl
      have hmirrors : u.Mirrors := by
        refine (mirrors_of_inputByte hh hr).resolve_left fun hup ↦ ?_
        have hdown := hcrossed [byte] (List.cons_prefix_cons.mpr ⟨rfl, List.nil_prefix⟩)
        rw [hrest] at hdown
        exact absurd (hup.symm.trans hdown) nofun
      refine ih (hu.activeChannel.trans hactive) (hu.pty.trans hpty) hmirrors (fun a ha ↦ ?_) hrun
      rw [← hrest]
      exact hcrossed (byte :: a) (List.cons_prefix_cons.mpr ⟨rfl, ha⟩)

/-- What a display leaves is behind what it took. -/
theorem ScreenHold.exists_drive_eq {hold : ScreenHold} {bytes rest : Bytes}
    (hdrive : hold.drive bytes = (none, rest)) :
    ∃ taken, bytes = taken ++ rest ∧ ∀ more, hold.drive (taken ++ more) = (none, more) := by
  induction bytes generalizing hold with
  | nil => cases hdrive
  | cons byte bytes ih =>
    rw [ScreenHold.drive] at hdrive
    split at hdrive
    · rename_i next hnext
      obtain ⟨taken, rfl, htaken⟩ := ih hdrive
      refine ⟨byte :: taken, rfl, fun more ↦ ?_⟩
      rw [List.cons_append, ScreenHold.drive, hnext]
      exact htaken more
    · rename_i hquit
      cases hdrive
      refine ⟨[byte], rfl, fun more ↦ ?_⟩
      rw [List.cons_append, ScreenHold.drive, hquit]
      rfl

theorem inStep_of_feedTty {bytes : Bytes} (hactive : h.activeChannel = some channel)
    (hpty : h.pty = true) (hh : InStep h)
    (hcrossed : ∀ a, a <+: bytes → (feedTty config host channel a h).2.crossed = false)
    (hrun : feedTty config host channel bytes h = (.ok (), t)) : InStep t := by
  rw [feedTty_eq] at hrun
  rcases hscreen : h.screen with - | hold <;> rw [hscreen] at hrun
  · refine inStep_of_inputBytes hactive hpty (hh.mirrors hpty) (fun a ha ↦ ?_) hrun
    have := hcrossed a ha
    rwa [feedTty_eq, hscreen] at this
  dsimp only at hrun
  rcases hdrive : hold.drive bytes with ⟨- | held, rest⟩ <;> rw [hdrive] at hrun
  · obtain ⟨taken, rfl, htaken⟩ := ScreenHold.exists_drive_eq hdrive
    dsimp only at hrun
    refine inStep_of_inputBytes (by exact hactive) (by exact hpty) ?_ (fun a ha ↦ ?_) hrun
    · show h.passwordBuf.isSome = MimicHandler.prompting (MimicHandler.built config host _)
      rw [prompting_built]
      exact hh.mirrors hpty
    · have := hcrossed (taken ++ a) (List.prefix_append_right_inj taken |>.mpr ha)
      rw [feedTty_eq, hscreen] at this
      dsimp only at this
      rwa [htaken] at this
  · cases hrun
    have hquiet : h.prompting = false := by
      have hup := hh.crossed
      rw [MimicHandler.crossed, hscreen] at hup
      exact hup
    refine ⟨hh.mirrors, ?_, fun hp ↦ absurd hp (by rw [hpty]; exact nofun)⟩
    show h.prompting = false
    exact hquiet

theorem inStep_foldl {β : Type} {f : MimicHandler → β → MimicHandler}
    (hf : ∀ h b, (f h b).pty = h.pty ∧ (f h b).passwordBuf = h.passwordBuf ∧
      (f h b).screen = h.screen ∧ (f h b).prompting = h.prompting) (l : List β)
    (hh : InStep h) : InStep (l.foldl f h) := by
  induction l generalizing h with
  | nil => exact hh
  | cons b l ih =>
    obtain ⟨hpty, hbuf, hscreen, hprompting⟩ := hf h b
    exact ih (hh.of_same hpty hbuf hscreen hprompting)

theorem prompting_of_pending {s : Interp.Shell}
    (hs : s.pending = (h.theShell config host).pending) :
    MimicHandler.prompting { h with shell := some s } = h.prompting := by
  rw [← any_theShell config host h, ← hs]
  rfl

theorem inStep_of_data {bytes : Bytes} (hactive : h.activeChannel = some channel) (hh : InStep h)
    (hcrossed : ∀ a, a <+: bytes → (data config host channel a h).2.crossed = false)
    (hrun : data config host channel bytes h = (.ok (), t)) : InStep t := by
  rw [data_eq] at hrun
  rcases hsftp : h.sftp with - | sftp <;> rw [hsftp] at hrun
  · rcases hscp : h.scp with - | sink <;> rw [hscp] at hrun <;> dsimp only at hrun
    · split at hrun
      · rename_i hpty
        refine inStep_of_feedTty hactive hpty hh (fun a ha ↦ ?_) hrun
        have hdown := hcrossed a ha
        rw [data_eq, hsftp, hscp] at hdown
        dsimp only at hdown
        rwa [if_pos hpty] at hdown
      · rename_i hpty
        have hlines := hh.lines ((Bool.not_eq_true _).mp hpty)
        rcases ensures_ok hrun (feedNoTty_leaves config host channel bytes h) with hclosed | hsame
        · exact inStep_of_closed hclosed hactive
        · have hoff : t.pty = false := hsame.pty.trans ((Bool.not_eq_true _).mp hpty)
          have hnone : t.screen = none := hsame.screen.trans hlines.2
          refine ⟨fun hp ↦ absurd (hoff.symm.trans hp) nofun, ?_,
            fun _ ↦ ⟨hsame.passwordBuf.trans hlines.1, hnone⟩⟩
          rw [MimicHandler.crossed, hnone]
          rfl
    · cases hrun
      rw [feedScp]
      have hfed := inStep_foldl (f := fun h file ↦ storeUpload config host h file)
        (fun h file ↦ ⟨rfl, rfl, rfl, prompting_of_pending (h := h) rfl⟩)
        (Scp.feed config.sha256 sink bytes).done
        (hh.of_same (t := { h with scp := some (Scp.feed config.sha256 sink bytes).sink })
          rfl rfl rfl rfl)
      split
      · exact hfed
      · exact hfed.of_same rfl rfl rfl rfl
  · cases hrun
    rw [feedSftp]
    have hview : InStep { h with
        sftp := some (Sftp.feed (ambient config host) config.maxUploadBytes bytes sftp
          (view (h.theShell config host))).session
        shell := some { h.theShell config host with
          vfs := (Sftp.feed (ambient config host) config.maxUploadBytes bytes sftp
            (view (h.theShell config host))).shell.vfs } } :=
      hh.of_same rfl rfl rfl (prompting_of_pending (h := h) rfl)
    have hfed := inStep_foldl (f := storeSftpUpload) (fun h upload ↦ ⟨rfl, rfl, rfl, rfl⟩)
      (Sftp.feed (ambient config host) config.maxUploadBytes bytes sftp
        (view (h.theShell config host))).completed hview
    split
    · exact hfed
    · exact hfed.of_same rfl rfl rfl rfl

theorem prompting_windowChangeRequest (h : MimicHandler) (colWidth rowHeight : UInt32) :
    (h.windowChangeRequest channel colWidth rowHeight).prompting = h.prompting := by
  rw [windowChangeRequest, prompting, prompting]
  show (h.shell.map _).any _ = _
  rw [Option.any_map]
  rcases h.shell with - | s
  · rfl
  · rcases h.ptyTerm with - | pty <;> rfl

/-- What keeps the input side in step with the shell. -/
def Keeps {α : Type} (m : Act α) : Prop :=
  ∀ h, InStep h → ensures (fun _ _ ↦ True) m (fun _ t ↦ InStep t) h

theorem Keeps.modify {f : MimicHandler → MimicHandler} (hf : ∀ h, InStep h → InStep (f h)) :
    Keeps (modify f) := hf

theorem Keeps.bind {α β : Type} {m : Act α} {f : α → Act β} (hm : Keeps m)
    (hf : ∀ a, Keeps (f a)) : Keeps (m >>= f) := fun h hh ↦
  ensures_bind.mpr (ensures_mono (fun _ _ _ ↦ trivial) (fun a t ht ↦ hf a t ht) (hm h hh))

variable (config host channel) in
theorem shellRequest_keeps : Keeps (shellRequest config host channel) := by
  refine .bind (.modify fun h hh ↦ hh.of_same rfl rfl rfl rfl) fun _ ↦
    .bind (fun h hh ↦ hh) fun h ↦
    .bind (fun h hh ↦ hh.of_same rfl rfl rfl (any_theShell config host h)) fun _ ↦
    .bind (.modify fun h hh ↦ hh.of_same rfl rfl rfl rfl) fun _ ↦ ?_
  split
  · exact .modify fun h hh ↦ hh.of_same rfl rfl rfl (any_theShell config host h)
  · exact fun h hh ↦ hh

theorem inStep_of_execRequest {bytes : Bytes} (hactive : h.activeChannel = some channel)
    (hh : InStep h) :
    ensures (fun _ _ ↦ True) (execRequest config host channel bytes) (fun _ t ↦ InStep t) h := by
  rw [execRequest, ensures_bind, ensures_modify]
  dsimp only
  split
  · exact hh.of_same rfl rfl rfl rfl
  · exact inStep_of_closed (endChannel_closed config host channel _ 1) hactive
  · exact ensures_mono (fun _ _ _ ↦ trivial) (fun _ _ ht ↦ inStep_of_closed ht (by exact hactive))
      (runExec_closes config host channel _ _)

/-- **One call.** -/
theorem inStep_step {e : Event} (he : Apart config e h) (hh : InStep h) :
    InStep (step config e h) := by
  have hf : InStep h.flushed := ⟨hh.mirrors, hh.crossed, hh.lines⟩
  rcases hr : handle config e h.flushed with ⟨stop | ⟨⟩, t⟩
  · have := he.returns
    rw [hr] at this
    cases this
  have hstep : step config e h = t := by rw [step, hr]
  have hactive : e.call ≠ .channelOpenSession → h.flushed.activeChannel = some e.channel := by
    intro hopens
    refine he.onOpen.resolve_left fun h ↦ hopens ?_
    cases hcall : e.call <;> rw [hcall] at h <;> first | rfl | cases h
  rw [hstep]
  obtain ⟨host, channel, call⟩ := e
  cases call with
  | channelOpenSession =>
    cases hr
    show InStep (h.flushed.tryOpenChannel channel)
    rw [tryOpenChannel]
    split <;> exact hf.of_same rfl rfl rfl rfl
  | ptyRequest term colWidth rowHeight =>
    cases hr
    rcases he.terminal term colWidth rowHeight rfl with hpty | hquiet
    · exact hf.of_same hpty.symm rfl rfl rfl
    · refine ⟨fun _ ↦ ?_, hf.crossed, by rintro ⟨⟩⟩
      show h.passwordBuf.isSome = h.prompting
      cases hpty : h.pty with
      | true => exact hh.mirrors hpty
      | false =>
        rw [(hh.lines hpty).1]
        exact hquiet.symm
  | envRequest name value =>
    cases hr
    show InStep (h.flushed.envRequest channel name value)
    rw [envRequest]
    split <;> exact hf.of_same rfl rfl rfl rfl
  | windowChangeRequest colWidth rowHeight =>
    cases hr
    exact hf.of_same rfl rfl rfl (prompting_windowChangeRequest h.flushed colWidth rowHeight)
  | subsystemRequest name =>
    cases hr
    show InStep (h.flushed.subsystemRequest channel name)
    rw [subsystemRequest]
    split <;> exact hf.of_same rfl rfl rfl rfl
  | agentRequest =>
    cases hr
    exact hf.of_same rfl rfl rfl rfl
  | shellRequest =>
    exact ensures_ok (Q := fun _ t ↦ InStep t) hr (shellRequest_keeps config host channel _ hf)
  | execRequest bytes =>
    exact ensures_ok (Q := fun _ t ↦ InStep t) hr
      (inStep_of_execRequest (hactive (by rintro ⟨⟩)) hf)
  | data bytes =>
    exact inStep_of_data (hactive (by rintro ⟨⟩)) hf (fun a ha ↦ he.display bytes rfl a ha) hr
  | channelEof =>
    rcases channelEof_cases config host hr with hclosed | rfl
    · exact inStep_of_closed hclosed (hactive (by rintro ⟨⟩))
    · exact hf
  | channelClose =>
    cases hr
    exact inStep_of_closed (closeChannel_closed config host channel h.flushed)
      (hactive (by rintro ⟨⟩))

end Calls

/-! ### What is typed -/

/-- What the shell says to a password. -/
def passwordTexts : List Str :=
  [[], "Retype new password: ".toList,
    ("Sorry, passwords do not match.\n" ++
      "passwd: Authentication token manipulation error\npasswd: password unchanged\n").toList,
    "passwd: password updated successfully\n".toList]

/-- A password that was tried. -/
def isAttempt : Capture → Bool
  | .passwordChange .. | .suAuth .. => true
  | _ => false

/-- The shell has been told a password, by which it has captured these. -/
structure Told (cs : List Capture) (s t : Interp.Shell) : Prop where
  history : t.history = s.history
  trace : t.trace = s.trace ++ cs.map .captured
  captures : t.captures = s.captures ++ cs
  attempts : ∀ c ∈ cs, isAttempt c

theorem Told.nothing {s t : Interp.Shell} (hhistory : t.history = s.history)
    (htrace : t.trace = s.trace) (hcaptures : t.captures = s.captures) : Told [] s t where
  history := hhistory
  trace := htrace.trans (List.append_nil _).symm
  captures := hcaptures.trans (List.append_nil _).symm
  attempts _ hc := absurd hc List.not_mem_nil

theorem writeText_history (host : Host) (s : Interp.Shell) (path text : Str) :
    (writeText host s path text).history = s.history := by
  rw [writeText]
  split
  · rfl
  · split
    · rfl
    · split <;> rfl

/-- **A password is answered** without a line being run. -/
theorem resume_told {s : Interp.Shell} {p : Pending} (hpending : s.pending = some p)
    (hsilent : p.echoes = false) (host : Host) (input : Str) :
    ∃ cs out t, resume host input s = (.ok out, t) ∧ Told cs s t ∧ out.exit = false ∧
      out.text ∈ passwordTexts := by
  rw [resume, bind_apply]
  show ∃ cs out t, (set (s.withPending none) >>= fun _ ↦ _ : Run Output) s = (.ok out, t) ∧ _
  rw [bind_apply]
  rcases p with ⟨target⟩ | ⟨target, _ | first⟩ | ⟨command, raw, doc, body⟩ <;>
    simp only [hpending]
  · exact ⟨[.suAuth target input], _, _, rfl, ⟨rfl, rfl, rfl, by simp [isAttempt]⟩, rfl,
      by decide +kernel⟩
  · exact ⟨[], _, _, rfl, .nothing rfl rfl rfl, rfl, by decide +kernel⟩
  · show ∃ cs out t, (if first ≠ input then pure _ else _ : Run Output) (s.withPending none) =
      (.ok out, t) ∧ _
    split
    · exact ⟨[], _, _, rfl, .nothing rfl rfl rfl, rfl, by decide +kernel⟩
    · obtain ⟨htrace, hcaptures⟩ := writeText_frame host ((s.withPending none).pushCapture
        (.passwordChange target first)) "/etc/shadow".toList _
      exact ⟨[.passwordChange target first], _, _, rfl,
        ⟨writeText_history .., htrace, hcaptures, by simp [isAttempt]⟩, rfl, by decide +kernel⟩
  · cases hsilent

/-- A byte that was typed for a password is neither echoed nor part of a line: no history knows of
it, nothing was run, and nothing but passwords was logged. -/
structure Quiet (config : Config) (host : Host) (channel : UInt32) (h t : MimicHandler) : Prop where
  editor : t.editor = h.editor ∨
    t.editor = h.editor.setPrompt (t.theShell config host).prompt
  history : (t.theShell config host).history = (h.theShell config host).history
  attempts : ∃ cs, (∀ c ∈ cs, isAttempt c) ∧
    (t.theShell config host).trace = (h.theShell config host).trace ++ cs.map .captured ∧
    t.logged ++ (t.theShell config host).captures.map logged =
      h.logged ++ ((h.theShell config host).captures ++ cs).map logged
  replies : ∃ sent : List Bytes,
    t.replies = h.replies ++ sent.map (fun bytes ↦ (channel, .data bytes)) ∧
    ∀ bytes ∈ sent, bytes = [0x0d, 0x0a] ∨ (∃ text ∈ passwordTexts, bytes = h.out text) ∨
      bytes = (h.editor.setPrompt (t.theShell config host).prompt).render

section Quiet

variable {config : Config} {host : Host} {channel : UInt32} {h t : MimicHandler} {typed : Bytes}

/-- A byte that is only collected. -/
theorem quiet_collected (kept : Bytes) :
    Quiet config host channel h { h with passwordBuf := some kept } where
  editor := .inl rfl
  history := rfl
  attempts := ⟨[], nofun, (List.append_nil _).symm, by rw [List.append_nil]; rfl⟩
  replies := ⟨[], (List.append_nil _).symm, nofun⟩

/-- Ctrl-C. -/
theorem quiet_interrupted :
    Quiet config host channel h
      (({ h with
          shell := some ((h.theShell config host).withPending none)
          passwordBuf := none }.data channel [0x0d, 0x0a]).drawPrompt config host channel) := by
  refine ⟨.inr rfl, rfl, ⟨[], nofun, (List.append_nil _).symm, by rw [List.append_nil]; rfl⟩,
    ⟨[[0x0d, 0x0a],
      (h.editor.setPrompt ((h.theShell config host).withPending none).prompt).render], ?_, ?_⟩⟩
  · show (h.replies ++ [_]) ++ [_] = _
    rw [List.append_assoc]
    rfl
  · intro bytes hbytes
    rcases List.mem_pair.mp hbytes with rfl | rfl
    · exact .inl rfl
    · exact .inr (.inr rfl)

variable (config host channel) in
/-- Enter: the answer is written, and the prompt is drawn behind it. -/
theorem quiet_entered {s u : Interp.Shell} {cs : List Capture} {out : Output}
    (hpty : h.pty = true) (hshell : h.shell = some s) (htold : Told cs s u)
    (htext : out.text ∈ passwordTexts)
    (ht : (({ h with passwordBuf := none, shell := some u }.data channel [0x0d, 0x0a]).drainCaptures
      config host).writeOutput channel out = t) :
    Quiet config host channel h { t.built config host with passwordBuf := some [] } ∧
      Quiet config host channel h ((t.built config host).drawPrompt config host channel) := by
  have hs : h.theShell config host = s := by rw [MimicHandler.theShell, hshell]; rfl
  obtain ⟨sent, hsent, hshell, heditor, hlogged, hreplies⟩ : ∃ sent : List Bytes,
      (∀ bytes ∈ sent, bytes = [0x0d, 0x0a] ∨ ∃ text ∈ passwordTexts, bytes = h.out text) ∧
      t.theShell config host = u.withCaptures [] ∧ t.editor = h.editor ∧
      t.logged = h.logged ++ u.captures.map logged ∧
      t.replies = h.replies ++ sent.map (fun bytes ↦ (channel, .data bytes)) := by
    rw [MimicHandler.writeOutput, if_pos (by exact hpty)] at ht
    split at ht
    · subst ht
      exact ⟨[[0x0d, 0x0a]], fun bytes hbytes ↦ .inl (List.mem_singleton.mp hbytes), rfl, rfl, rfl,
        rfl⟩
    · subst ht
      refine ⟨[[0x0d, 0x0a], h.out out.text], fun bytes hbytes ↦ ?_, rfl, rfl, rfl, ?_⟩
      · rcases List.mem_pair.mp hbytes with rfl | rfl
        · exact .inl rfl
        · exact .inr ⟨out.text, htext, rfl⟩
      · show (h.replies ++ [_]) ++ [_] = _
        rw [List.append_assoc]
        rfl
  have hhistory : (t.theShell config host).history = (h.theShell config host).history := by
    rw [hshell, hs]
    exact htold.history
  have htrace : (t.theShell config host).trace =
      (h.theShell config host).trace ++ cs.map .captured := by
    rw [hshell, hs]
    exact htold.trace
  have hlog : t.logged ++ (t.theShell config host).captures.map logged =
      h.logged ++ ((h.theShell config host).captures ++ cs).map logged := by
    rw [hshell, hs, hlogged, ← htold.captures]
    exact List.append_nil _
  constructor
  · exact ⟨.inl heditor, hhistory, ⟨cs, htold.attempts, htrace, hlog⟩,
      ⟨sent, hreplies, fun bytes hbytes ↦ (hsent bytes hbytes).imp_right .inl⟩⟩
  · have hdrawn : t.editor.setPrompt (t.theShell config host).prompt =
        h.editor.setPrompt (t.theShell config host).prompt := by rw [heditor]
    refine ⟨.inr hdrawn, hhistory, ⟨cs, htold.attempts, htrace, hlog⟩,
      ⟨sent ++ [(h.editor.setPrompt (t.theShell config host).prompt).render], ?_,
        fun bytes hbytes ↦ ?_⟩⟩
    · show t.replies ++
        [(channel, .data (t.editor.setPrompt (t.theShell config host).prompt).render)] = _
      rw [hdrawn, hreplies, List.map_append, List.append_assoc]
      rfl
    · rcases List.mem_append.mp hbytes with hbytes | hbytes
      · exact (hsent bytes hbytes).imp_right .inl
      · exact .inr (.inr (List.mem_singleton.mp hbytes))

variable (config host channel) in
/-- **A byte typed for a password.** -/
theorem inputPassword_quiet {s : Interp.Shell} {p : Pending} (hpty : h.pty = true)
    (hshell : h.shell = some s) (hpending : s.pending = some p) (hsilent : p.echoes = false)
    (typed : Bytes) (hbuf : h.passwordBuf = some typed) (byte : UInt8) :
    ∃ t, inputPassword config host channel typed byte h = (.ok false, t) ∧
      Quiet config host channel h t := by
  have hs : h.theShell config host = s := by rw [MimicHandler.theShell, hshell]; rfl
  rw [inputPassword]
  split
  · obtain ⟨cs, out, u, hu, htold, hexit, htext⟩ :=
      resume_told hpending hsilent host (Text.fromUtf8Lossy typed)
    obtain ⟨hasks, hdraws⟩ := quiet_entered config host channel hpty hshell htold htext rfl
    have hasked : ({ h with passwordBuf := none }.data channel [0x0d, 0x0a]).theShell config host =
        s := hs
    have hresume : onShell config host (resume host (Text.fromUtf8Lossy typed))
        ({ h with passwordBuf := none }.data channel [0x0d, 0x0a]) =
        (.ok out, { h with passwordBuf := none, shell := some u }.data channel [0x0d, 0x0a]) := by
      rw [onShell, hasked, hu]
      rfl
    have hdeliver : ∀ g, deliver config host channel out g =
        (.ok false, (g.drainCaptures config host).writeOutput channel out) := by
      intro g
      rw [deliver, hexit]
      rfl
    show ∃ t, (onShell config host _ >>= _ : Act Bool)
      ({ h with passwordBuf := none }.data channel [0x0d, 0x0a]) = _ ∧ _
    rw [bind_apply, hresume]
    dsimp only
    rw [bind_apply, hdeliver]
    dsimp only
    rw [if_neg Bool.false_ne_true]
    generalize (({ h with passwordBuf := none, shell := some u }.data channel
      [0x0d, 0x0a]).drainCaptures config host).writeOutput channel out = t at hasks hdraws ⊢
    rcases hwaits : (t.theShell config host).pending.any fun p ↦ !p.echoes
    · refine ⟨_, ?_, hdraws⟩
      show (if (t.theShell config host).pending.any (fun p ↦ !p.echoes) then _ else _ : Act Bool)
        (t.built config host) = _
      rw [hwaits]
      rfl
    · refine ⟨_, ?_, hasks⟩
      show (if (t.theShell config host).pending.any (fun p ↦ !p.echoes) then _ else _ : Act Bool)
        (t.built config host) = _
      rw [hwaits]
      rfl
  split
  · exact ⟨_, rfl, quiet_interrupted⟩
  split
  · exact ⟨_, rfl, quiet_collected _⟩
  split
  · exact ⟨_, rfl, quiet_collected _⟩
  · refine ⟨_, rfl, ?_⟩
    have hsame : h = { h with passwordBuf := some typed } := by rw [← hbuf]
    rw [hsame]
    exact quiet_collected typed

/-- **What is typed at a password prompt.** -/
theorem data_quiet (hh : OnTerminal channel h) (hscreen : h.screen = none) (hmirrors : h.Mirrors)
    (hwaits : h.prompting = true) (host : Host) (byte : UInt8) :
    ∃ t, Quiet config host channel h t ∧ ∀ bytes,
      data config host channel (byte :: bytes) h = inputBytes config host channel bytes t := by
  obtain ⟨typed, hbuf⟩ := Option.isSome_iff_exists.mp (hmirrors.trans hwaits)
  rw [prompting] at hwaits
  rcases hshell : h.shell with - | s <;> rw [hshell] at hwaits
  · cases hwaits
  rcases hpending : s.pending with - | p <;> rw [Option.any_some, hpending] at hwaits
  · cases hwaits
  have hsilent : p.echoes = false := by simpa using hwaits
  obtain ⟨t, ht, hquiet⟩ :=
    inputPassword_quiet config host channel hh.pty hshell hpending hsilent typed hbuf byte
  refine ⟨t, hquiet, fun bytes ↦ ?_⟩
  rw [hh.data_eq, feedTty_eq, hscreen]
  dsimp only
  rw [inputBytes, bind_apply, inputByte_eq, hbuf]
  dsimp only
  rw [ht]
  rfl

end Quiet

theorem inStep_new (username : Str) : InStep (.new username) := ⟨nofun, rfl, fun _ ↦ ⟨rfl, rfl⟩⟩

/-- **Passwords are not commands**, where no line leaves the shell waiting for one with a display
up: without a display the input is collected exactly while the shell waits, and what is typed then
is not treated as a line. -/
theorem passwords_apart {config : Config} {username : Str} {es : List Event} {channel : UInt32}
    {h : MimicHandler} (hrun : Admissible (step config) (Apart config) (.new username) es)
    (hh : run (step config) (.new username) es = h) (hterm : OnTerminal channel h)
    (hscreen : h.screen = none) :
    (h.passwordBuf.isSome ↔ h.prompting) ∧
      (h.prompting → ∀ host byte, ∃ t, Quiet config host channel h t ∧ ∀ bytes,
        data config host channel (byte :: bytes) h = inputBytes config host channel bytes t) := by
  have hstep : InStep h := by
    rw [← hh]
    exact invariant_run hrun (fun _ _ he hs ↦ inStep_step he hs) (inStep_new username)
  have hmirrors := hstep.mirrors hterm.pty
  exact ⟨Bool.eq_iff_iff.mp hmirrors, fun hwaits ↦ data_quiet hterm hscreen hmirrors hwaits⟩

/-- A host where `passwd` asks for a password, and every other command opens a display. -/
def passwdHost : Host :=
  { bareHost with
    isCommand := fun _ ↦ true
    command := fun name _ s ↦
      if name = "passwd".toList then
        { s.report (.ok []) with pending := some (.newPassword "root".toList none) }
      else { s.report (.ok []) with screen := some (.top ⟨[], 0, 0⟩) } }

/-- A shell on a terminal, and what is typed into it. -/
def typing (deliveries : List Bytes) : List Event :=
  (openTerminal ++ deliveries.map Call.data).map fun call ↦ ⟨passwdHost, 0, call⟩

/-- `passwd` and Enter. -/
def passwdLine : Bytes := Text.toUtf8 "passwd\r".toList

/-- `passwd; top` and Enter, a key that quits the display, and `x` and Enter. -/
def crossedLines : List Bytes := [Text.toUtf8 "passwd; top\r".toList, [0x71], [0x78, 0x0d]]

/-- The password is collected where it is asked for by a line of its own. -/
theorem passwords_apart_passwd :
    ((run (step bareConfig) (.new "root".toList) (typing [passwdLine])).passwordBuf.isSome ↔
      (run (step bareConfig) (.new "root".toList) (typing [passwdLine])).prompting) := by
  have hrun : Admissible (step bareConfig) (Apart bareConfig) (.new "root".toList)
      (typing [passwdLine]) := by
    refine ⟨⟨by decide +kernel, nofun, nofun⟩,
      ⟨by decide +kernel, fun _ _ _ _ ↦ .inr (by decide +kernel), nofun⟩,
      ⟨by decide +kernel, nofun, nofun⟩, ⟨by decide +kernel, nofun, ?_⟩, trivial⟩
    rintro bytes ⟨⟩ a ha
    have hall : ∀ a ∈ passwdLine.inits, (data bareConfig passwdHost 0 a
        (run (step bareConfig) (.new "root".toList) (typing [])).flushed).2.crossed = false := by
      decide +kernel
    exact hall a ((List.mem_inits a passwdLine).mpr ha)
  have hterm : OnTerminal 0 (run (step bareConfig) (.new "root".toList) (typing [passwdLine])) :=
    ⟨by decide +kernel, by decide +kernel, Option.isNone_iff_eq_none.mp (by decide +kernel),
      Option.isNone_iff_eq_none.mp (by decide +kernel)⟩
  exact (passwords_apart hrun rfl hterm (by decide +kernel)).1

/-- A password prompt behind a display is answered by a line, which is run and logged. -/
theorem crossed_logged :
    Admissible (step bareConfig) (Orderly bareConfig) (.new "root".toList) (typing crossedLines) ∧
    OnTerminal 0 (run (step bareConfig) (.new "root".toList) (typing (crossedLines.take 2))) ∧
    (run (step bareConfig) (.new "root".toList) (typing (crossedLines.take 2))).screen = none ∧
    (run (step bareConfig) (.new "root".toList) (typing (crossedLines.take 2))).passwordBuf =
      none ∧
    (run (step bareConfig) (.new "root".toList) (typing (crossedLines.take 2))).prompting = true ∧
    .command ['x'] .interactive (some 0) ∈
      (run (step bareConfig) (.new "root".toList) (typing crossedLines)).logged := by
  refine ⟨by decide +kernel, ⟨by decide +kernel, by decide +kernel,
    Option.isNone_iff_eq_none.mp (by decide +kernel),
    Option.isNone_iff_eq_none.mp (by decide +kernel)⟩, by decide +kernel, by decide +kernel,
    by decide +kernel, by decide +kernel⟩

end Connection

end Mimic
