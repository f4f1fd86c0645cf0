import Mimic.Commands.Sessions
import Mimic.Network.ChannelIsolation
import Mimic.Network.Uploads

/-!
# A connection and its filesystem

A connection has one shell, and everything that its client does goes to the filesystem of that
shell: the lines of a terminal or of a pipe, a one-shot command, packets of the SFTP subsystem and
files over SCP, those included that are cut short. Each call of the handler leaves the shell in
order (`Furnished`), whatever becomes of the call, so every run of calls does (`connection_files`).
-/

namespace Mimic

namespace Connection

open Interp Outcomes GuardedRun Vfs

/-! ### Transfers -/

section Transfers

variable {ambient : Sftp.Ambient} {maxUploadBytes : ℕ} {v : Vfs}

theorem edits_handlePacket (pkt : Bytes) (x : Sftp.Exchange) (hx : x.shell.vfs.WellFormed) :
    x.shell.vfs.Edits (Sftp.handlePacket ambient maxUploadBytes pkt x).shell.vfs := by
  obtain ⟨ops, hops, hvfs⟩ :=
    (Uploads.handlePacket_continues ambient maxUploadBytes pkt x).ops hx
  exact ⟨ops, hops, hvfs.symm⟩

theorem edits_feedLoop (fuel : ℕ) (rest : Bytes) (x : Sftp.Exchange)
    (hx : x.shell.vfs.WellFormed) :
    x.shell.vfs.Edits (Sftp.feedLoop ambient maxUploadBytes fuel rest x).2.shell.vfs := by
  induction fuel generalizing rest x with
  | zero => exact .refl _
  | succ fuel ih =>
    rw [Sftp.feedLoop]
    dsimp only
    split
    · exact .refl _
    split
    · exact .refl _
    split
    · exact .refl _
    have hone : x.shell.vfs.Edits (Sftp.handlePacket ambient maxUploadBytes
        ((rest.drop 4).take (BigEndian.decode (rest.take 4))) x).shell.vfs :=
      edits_handlePacket _ x hx
    split
    · exact hone
    · exact hone.trans (ih _ _ (hone.wellFormed hx))

theorem edits_place (hv : v.WellFormed) (now : Timestamp) (dir name : Str) (contents : Bytes)
    (perms uid gid : UInt32) : v.Edits (v.place now dir name contents perms uid gid).1 := by
  obtain ⟨ops, hops, hvfs⟩ := place_ops now perms uid gid hv dir name contents
  exact ⟨ops, hops, hvfs.symm⟩

theorem edits_finishPending (shell : Mimic.Shell) (handles : List Sftp.SftpHandle)
    (done : List Sftp.CompletedUpload) (hshell : shell.vfs.WellFormed) :
    shell.vfs.Edits (handles.foldl (Sftp.finishPending ambient) (shell, done)).1.vfs := by
  refine (Edits.foldl (fun acc : Mimic.Shell × List Sftp.CompletedUpload ↦ acc.1.vfs)
    (P := fun acc ↦ acc.1.vfs.WellFormed) handles (fun acc handle _ hacc ↦ ?_)
    (s := (shell, done)) hshell).1
  have hedit : acc.1.vfs.Edits (Sftp.finishPending ambient acc handle).1.vfs := by
    rcases handle with ⟨entries, offset⟩ | ⟨data, metadata⟩ | file
    · exact .refl _
    · exact .refl _
    · rw [Sftp.finishPending]
      split
      · obtain ⟨ops, hops, hvfs⟩ := Sftp.mirror_ops ambient file hacc
        exact ⟨ops, hops, hvfs.symm⟩
      · exact .refl _
  exact ⟨hedit, hedit.wellFormed hacc⟩

theorem edits_writeToVfs (now : Timestamp) (shell : Mimic.Shell) (target : Str) (recursive : Bool)
    (file : Scp.CompletedFile) (hshell : shell.vfs.WellFormed) :
    shell.vfs.Edits (Scp.writeToVfs now shell target recursive file).1.vfs := by
  rw [Uploads.writeToVfs_eq]
  exact edits_place hshell _ _ _ _ _ _ _

end Transfers

/-! ### The shell of a connection -/

variable {config : Config} {host : Host} {channel : UInt32} {h t : MimicHandler}
  {s : Interp.Shell} {α β : Type}

/-- The shell is seated in what mutator calls have made of a snapshot. -/
def InOrder (config : Config) (s : Interp.Shell) : Prop :=
  s.Seated ∧ ∃ now, (config.snapshot now).Edits s.vfs

/-- The shell of the connection, if there is one, is in order. -/
def Furnished (config : Config) (h : MimicHandler) : Prop := ∀ s ∈ h.shell, InOrder config s

theorem InOrder.kept {t : Interp.Shell} (hs : InOrder config s) (h : Kept s t) :
    InOrder config t := by
  obtain ⟨hseated, now, hsnapshot⟩ := hs
  obtain ⟨ht, hedits⟩ := h hseated
  exact ⟨ht, now, hsnapshot.trans hedits⟩

namespace Furnished

/-- Sending does not touch the shell. -/
theorem data (hh : Furnished config h) (bytes : Bytes) : Furnished config (h.data channel bytes) :=
  hh

/-- Neither does logging. -/
theorem logCommand (hh : Furnished config h) (text : Str) (source : CommandSource)
    (status : Option ℤ) : Furnished config (h.logCommand text source status) := hh

theorem of_shell (hh : Furnished config h) (heq : t.shell = h.shell) : Furnished config t :=
  fun s hs ↦ hh s (heq ▸ hs)

theorem of_some (hs : InOrder config s) (heq : t.shell = some s) : Furnished config t :=
  fun _ hu ↦ Option.some.inj (heq.symm.trans hu) ▸ hs

theorem of_none (heq : t.shell = none) : Furnished config t := fun s hs ↦ by
  rw [heq] at hs
  cases hs

end Furnished

/-- The snapshots that shells start on are trees. -/
def Snapshots (config : Config) : Prop := ∀ now, (config.snapshot now).WellFormed

section Served

variable (hconfig : Snapshots config)

include hconfig

theorem inOrder_theShell (hh : Furnished config h) : InOrder config (h.theShell config host) := by
  rw [MimicHandler.theShell]
  rcases hshell : h.shell with - | s
  · obtain ⟨hseated, hedits⟩ := seated_withPersona (hconfig host.now) host.now h.username
      config.hostname
    have hfresh : InOrder config (Interp.Shell.withPersona host.now (config.snapshot host.now)
        h.username config.hostname) := ⟨hseated, host.now, hedits⟩
    exact hfresh.kept ((Kept.refl _).quiet rfl rfl)
  · exact hh s hshell

/-- The shell is built, and worked on. -/
theorem furnished_onto (host : Host) (hh : Furnished config h)
    (hkept : Kept (h.theShell config host) s) (heq : t.shell = some s) : Furnished config t :=
  .of_some ((inOrder_theShell hconfig hh).kept hkept) heq

omit hconfig in
theorem kept_setVfs {v : Vfs} (h : s.vfs.WellFormed → s.vfs.Edits v) :
    Kept s { s with vfs := v } := .edit (fun hs ↦ h hs.wellFormed) rfl rfl

/-! ### Functions -/

theorem furnished_storeUpload (hh : Furnished config h) (file : Scp.CompletedFile) :
    Furnished config (h.storeUpload config host file) :=
  furnished_onto hconfig host hh (kept_setVfs fun hv ↦
    edits_writeToVfs host.now (MimicHandler.view _) _ _ file hv) rfl

omit hconfig in
theorem shell_foldl_storeSftpUpload (uploads : List Sftp.CompletedUpload) (h : MimicHandler) :
    (uploads.foldl MimicHandler.storeSftpUpload h).shell = h.shell := by
  induction uploads generalizing h with
  | nil => rfl
  | cons upload uploads ih => exact ih _

omit hconfig in
theorem furnished_drainSftpUploads (hh : Furnished config h) :
    Furnished config (h.drainSftpUploads config host) := by
  rw [MimicHandler.drainSftpUploads]
  split
  · exact hh
  · rename_i hshell
    exact .of_none hshell
  · rename_i sftp shell _ hshell
    refine .of_some ((hh shell hshell).kept (kept_setVfs fun hv ↦ ?_))
      (shell_foldl_storeSftpUpload _ _)
    exact edits_finishPending (MimicHandler.view shell) _ _ hv

theorem furnished_feedSftp (hh : Furnished config h) (sftp : Sftp.SftpSession) (bytes : Bytes) :
    Furnished config (h.feedSftp config host channel sftp bytes) := by
  rw [MimicHandler.feedSftp]
  set fed := Sftp.feed (MimicHandler.ambient config host) config.maxUploadBytes bytes sftp
    (MimicHandler.view (h.theShell config host)) with hfed
  have hkept : Kept (h.theShell config host)
      { h.theShell config host with vfs := fed.shell.vfs } := kept_setVfs fun hv ↦
    edits_feedLoop _ _ ⟨sftp, MimicHandler.view (h.theShell config host), [], []⟩ hv
  have hstored : Furnished config (fed.completed.foldl MimicHandler.storeSftpUpload
      { h with
        sftp := some fed.session
        shell := some { h.theShell config host with vfs := fed.shell.vfs } }) :=
    furnished_onto hconfig host hh hkept (shell_foldl_storeSftpUpload _ _)
  split
  · exact hstored
  · exact hstored.of_shell rfl

theorem furnished_feedScp (hh : Furnished config h) (sink : Scp.ScpSink) (bytes : Bytes) :
    Furnished config (h.feedScp config host channel sink bytes) := by
  have hstored : ∀ (files : List Scp.CompletedFile) (t : MimicHandler), Furnished config t →
      Furnished config (files.foldl (fun h file ↦ h.storeUpload config host file) t) := by
    intro files
    induction files with
    | nil => exact fun _ ht ↦ ht
    | cons file files ih => exact fun t ht ↦ ih _ (furnished_storeUpload hconfig ht file)
  have hfed := hstored (Scp.feed config.sha256 sink bytes).done
    { h with scp := some (Scp.feed config.sha256 sink bytes).sink } (hh.of_shell rfl)
  rw [MimicHandler.feedScp]
  split
  · exact hfed
  · exact hfed.of_shell rfl

omit hconfig in
theorem furnished_closeChannel (hh : Furnished config h) :
    Furnished config (h.closeChannel config host channel) := by
  rw [MimicHandler.closeChannel]
  split
  · exact .of_none rfl
  · exact hh

omit hconfig in
theorem furnished_endChannel (hh : Furnished config h) (status : ℕ) :
    Furnished config (h.endChannel config host channel status) :=
  furnished_closeChannel (h := ((h.reply channel (.exitStatus status)).reply channel .eof).reply
    channel .close) (hh.of_shell rfl)

omit hconfig in
theorem shell_writeOutput (h : MimicHandler) (output : Output) :
    (h.writeOutput channel output).shell = h.shell := by
  rw [MimicHandler.writeOutput]
  split_ifs <;> rfl

theorem furnished_drainCaptures (hh : Furnished config h) :
    Furnished config (h.drainCaptures config host) := by
  have hkept : Kept (h.theShell config host) ((h.theShell config host).withCaptures []) :=
    (Kept.refl _).quiet rfl rfl
  exact furnished_onto hconfig host hh hkept rfl

theorem furnished_logClosedHeredoc (hh : Furnished config h) :
    Furnished config (h.logClosedHeredoc config host) := by
  have hkept : Kept (h.theShell config host) { h.theShell config host with heredocLog := none } :=
    (Kept.refl _).quiet rfl rfl
  rw [MimicHandler.logClosedHeredoc]
  split
  · exact furnished_onto hconfig host hh hkept rfl
  · exact furnished_onto hconfig host hh hkept rfl

theorem furnished_drawPrompt (hh : Furnished config h) :
    Furnished config (h.drawPrompt config host channel) :=
  furnished_onto hconfig host hh (.refl _) rfl

theorem furnished_settle (hh : Furnished config h) :
    Furnished config (h.settle config host channel) := by
  rw [MimicHandler.settle]
  split
  · rename_i screen _
    have hkept : Kept (h.theShell config host) { h.theShell config host with screen := none } :=
      (Kept.refl _).quiet rfl rfl
    refine furnished_onto hconfig host hh hkept ?_
    cases screen <;> rfl
  have hbuilt : Furnished config (h.built config host) :=
    furnished_onto hconfig host hh (.refl _) rfl
  split
  · exact furnished_drawPrompt hconfig hbuilt
  split
  · exact hbuilt.of_shell rfl
  · exact hbuilt.of_shell rfl

theorem furnished_completeCurrentWord (hh : Furnished config h) :
    Furnished config (h.completeCurrentWord config host channel) := by
  have hbuilt : Furnished config (h.built config host) :=
    furnished_onto hconfig host hh (.refl _) rfl
  rw [MimicHandler.completeCurrentWord]
  dsimp only
  split
  · exact hbuilt
  · exact hbuilt.of_shell rfl
  · exact hbuilt.of_shell rfl

/-! ### Calls -/

omit hconfig in
/-- A call that leaves the shell in order, whatever becomes of it. -/
def Upholds (config : Config) (m : Act α) (h : MimicHandler) : Prop :=
  ensures (fun _ t ↦ Furnished config t) m (fun _ t ↦ Furnished config t) h

namespace Upholds

omit hconfig

theorem pure (a : α) (hh : Furnished config h) : Upholds config (pure a) h := hh

theorem bind {m : Act α} {f : α → Act β} (hm : Upholds config m h)
    (hf : ∀ a t, Furnished config t → Upholds config (f a) t) : Upholds config (m >>= f) h :=
  ensures_bind.mpr (ensures_mono (fun _ _ ht ↦ ht) hf hm)

theorem of_modify {f : MimicHandler → MimicHandler} (hf : Furnished config (f h)) :
    Upholds config (modify f) h := hf

/-- What is done to the state first. -/
theorem modify_bind {f : MimicHandler → MimicHandler} {m : PUnit → Act β}
    (hm : Upholds config (m ⟨⟩) (f h)) : Upholds config (modify f >>= m) h := hm

theorem get_bind {m : MimicHandler → Act β} (hm : Upholds config (m h) h) :
    Upholds config (get >>= m) h := hm

theorem set_bind {m : PUnit → Act β} (hm : Upholds config (m ⟨⟩) t) :
    Upholds config (set t >>= m) h := hm

end Upholds

theorem upholds_onShell {m : Run α} (hm : ∀ s, Kept s (m s).2) (hh : Furnished config h) :
    Upholds config (onShell config host m) h := by
  have hrun : Furnished config { h with shell := some (m (h.theShell config host)).2 } :=
    furnished_onto hconfig host hh (hm _) rfl
  rw [Upholds, ensures, onShell]
  rcases hr : m (h.theShell config host) with ⟨e | a, s⟩
  · rwa [hr] at hrun
  · rwa [hr] at hrun

theorem upholds_theShell (hh : Furnished config h) : Upholds config (theShell config host) h :=
  upholds_onShell hconfig (fun s ↦ .refl s) hh

theorem upholds_deliver (output : Output) (hh : Furnished config h) :
    Upholds config (deliver config host channel output) h := by
  have hwritten : Furnished config ((h.drainCaptures config host).writeOutput channel output) :=
    (furnished_drainCaptures hconfig hh).of_shell (shell_writeOutput _ _)
  refine .modify_bind ?_
  split
  · exact .modify_bind (.pure true (furnished_endChannel hwritten _))
  · exact .pure false hwritten

variable (hhost : host.KeepsFiles)

omit hconfig in
include hhost in
theorem kept_execute (line : Str) (s : Interp.Shell) :
    Kept s (Interp.execute host (Interp.levels host) line s).2 :=
  ensures_snd (execute_kept hhost (level_kept hhost maxNestedCommands) line s)

omit hconfig in
include hhost in
theorem kept_finishHeredocAtEof (s : Interp.Shell) : Kept s (Interp.finishHeredocAtEof host s).2 :=
  ensures_snd (process_kept hhost .eof s)

include hhost

theorem upholds_answer (line : Str) (hh : Furnished config h) :
    Upholds config (answer config host channel line) h :=
  .bind (upholds_onShell hconfig (fun s ↦ ensures_snd (resume_kept hhost line s)) hh)
    fun output _ ht ↦ .modify_bind
      (upholds_deliver hconfig output (furnished_logClosedHeredoc hconfig ht))

theorem upholds_submitLine (line : Str) (hh : Furnished config h) :
    Upholds config (submitLine config host channel line) h := by
  have hrest : ∀ t, Furnished config t → Upholds config (do
      let result ← onShell config host (Interp.execute host (Interp.levels host) (Text.trim line))
      let shell ← theShell config host
      if Text.trim line ≠ [] ∧ ¬ shell.pending.any Pending.echoes then
        modify fun h ↦
          h.logCommand (Text.trim line) (if h.pty then .interactive else .pipe) (some result.status)
      deliver config host channel result) t := by
    intro t ht
    refine .bind (upholds_onShell hconfig (kept_execute hhost _) ht) fun result u hu ↦
      .bind (upholds_theShell hconfig hu) fun shell v hv ↦ ?_
    split
    · exact .modify_bind (upholds_deliver hconfig result (hv.of_shell rfl))
    · exact upholds_deliver hconfig result hv
  rw [submitLine]
  dsimp only
  split
  · have hrecorded : ∀ line (s : Interp.Shell), Kept s (s.recordHistory line) := fun _ s ↦ by
      rw [Interp.Shell.recordHistory]
      dsimp only
      split
      · exact .refl s
      · generalize List.drop _ _ = history
        exact (Kept.refl s).quiet rfl rfl
    exact .bind (upholds_onShell hconfig (hrecorded _) hh) fun _ t ht ↦ hrest t ht
  · exact hrest h hh

theorem upholds_runNoTtyLine (line : Str) (hh : Furnished config h) :
    Upholds config (runNoTtyLine config host channel line) h := by
  refine .bind (upholds_theShell hconfig hh) fun shell t ht ↦ ?_
  split
  · exact upholds_answer hconfig hhost line ht
  · exact upholds_submitLine hconfig hhost line ht

theorem upholds_feedNoTty (bytes : Bytes) (hh : Furnished config h) :
    Upholds config (feedNoTty config host channel bytes) h := by
  induction bytes generalizing h with
  | nil => exact hh
  | cons byte bytes ih =>
    rw [feedNoTty]
    split
    · exact ih hh
    split
    · refine .bind (m := takeLine) (hh.of_shell rfl) fun line t ht ↦
        .bind (upholds_runNoTtyLine hconfig hhost line ht) fun ended u hu ↦ ?_
      split
      · exact .pure _ hu
      · exact ih hu
    · refine .modify_bind (ih (hh.of_shell ?_))
      split <;> rfl

theorem upholds_inputPassword (typed : Bytes) (byte : UInt8) (hh : Furnished config h) :
    Upholds config (inputPassword config host channel typed byte) h := by
  rw [inputPassword]
  split
  · have hfed : Furnished config
        ({ h with passwordBuf := none }.data channel [0x0d, 0x0a]) := hh.of_shell rfl
    refine .modify_bind (.bind (upholds_onShell hconfig
      (fun s ↦ ensures_snd (resume_kept hhost _ s)) hfed) fun output t ht ↦
      .bind (upholds_deliver hconfig output ht) fun ended u hu ↦ ?_)
    split
    · exact .pure _ hu
    · refine .bind (upholds_theShell hconfig hu) fun shell v hv ↦ ?_
      split
      · exact .modify_bind (.pure _ (hv.of_shell rfl))
      · exact .modify_bind (.pure _ (furnished_drawPrompt hconfig hv))
  split
  · refine .bind (upholds_onShell hconfig (fun s ↦ (Kept.refl s).quiet rfl rfl) hh) fun _ t ht ↦
      .modify_bind (.pure _ (furnished_drawPrompt hconfig (ht.of_shell rfl)))
  split
  · exact .modify_bind (.pure _ (hh.of_shell rfl))
  split
  · exact .modify_bind (.pure _ (hh.of_shell rfl))
  · exact .pure _ hh

theorem upholds_submitted (line : Str) (hh : Furnished config h) :
    Upholds config (submitted config host channel line) h := by
  have hsettle : ∀ (ended : Bool) t, Furnished config t → Upholds config (if ended then pure true
      else modify (fun h ↦ h.settle config host channel) >>= fun _ ↦ pure false) t := by
    intro ended t ht
    split
    · exact .pure _ ht
    · exact .modify_bind (.pure _ (furnished_settle hconfig ht))
  refine .bind (upholds_theShell hconfig hh) fun shell t ht ↦ ?_
  split
  · exact .bind (upholds_answer hconfig hhost line ht) hsettle
  · exact .bind (upholds_submitLine hconfig hhost line ht) hsettle

theorem upholds_inputByte (byte : UInt8) (hh : Furnished config h) :
    Upholds config (inputByte config host channel byte) h := by
  rw [inputByte]
  refine .get_bind ?_
  split
  · exact upholds_inputPassword hconfig hhost _ byte hh
  rw [inputLine]
  refine .get_bind (.set_bind ?_)
  have hreacted : Furnished config { h with editor := (h.editor.input byte).2 } := hh.of_shell rfl
  split
  · exact .pure _ hreacted
  · exact .modify_bind (.pure _ (hreacted.of_shell rfl))
  · exact .modify_bind (.pure _ (furnished_completeCurrentWord hconfig hreacted))
  · exact .bind (upholds_theShell hconfig hreacted) fun shell t ht ↦
      .modify_bind (.pure _ (furnished_endChannel (ht.data _) _))
  · exact .modify_bind (upholds_submitted hconfig hhost _ (hreacted.of_shell rfl))

theorem upholds_inputBytes (bytes : Bytes) (hh : Furnished config h) :
    Upholds config (inputBytes config host channel bytes) h := by
  induction bytes generalizing h with
  | nil => exact hh
  | cons byte bytes ih =>
    refine .bind (upholds_inputByte hconfig hhost byte hh) fun ended t ht ↦ ?_
    split
    · exact .pure _ ht
    · exact ih ht

theorem upholds_data (bytes : Bytes) (hh : Furnished config h) :
    Upholds config (data config host channel bytes) h := by
  rw [data]
  refine .get_bind ?_
  split
  · exact furnished_feedSftp hconfig hh _ bytes
  · exact furnished_feedScp hconfig hh _ bytes
  split
  · rw [feedTty]
    refine .get_bind ?_
    split
    · exact upholds_inputBytes hconfig hhost bytes hh
    split
    · exact hh.of_shell rfl
    · exact .set_bind (upholds_inputBytes hconfig hhost _
        (furnished_drawPrompt hconfig (hh.of_shell rfl)))
  · exact upholds_feedNoTty hconfig hhost bytes hh

theorem upholds_runExec (cmd : Str) (hh : Furnished config h) :
    Upholds config (runExec config host channel cmd) h := by
  have hquiet : ∀ {f : Interp.Shell → Interp.Shell} {t : MimicHandler},
      (∀ s, (f s).vfs = s.vfs ∧ (f s).seats = s.seats) → Furnished config t →
        Upholds config (onShell config host (modify f)) t := fun hf ht ↦
    upholds_onShell hconfig (fun s ↦ (Kept.refl s).quiet (hf s).1 (hf s).2) ht
  have hend : ∀ (result : Output) t, Furnished config t → Upholds config (do
      onShell config host (modify fun s ↦ s.withPending none)
      modify fun h ↦ ((h.logCommand cmd .exec (some result.status)).drainCaptures config
        host).writeOutput channel result
      modify fun h ↦ h.endChannel config host channel (asU32 result.status)) t := by
    intro result t ht
    refine .bind (hquiet (fun _ ↦ ⟨rfl, rfl⟩) ht) fun _ u hu ↦ .modify_bind (.of_modify ?_)
    have hdrained : Furnished config
        ((u.logCommand cmd .exec (some result.status)).drainCaptures config host) :=
      furnished_drainCaptures hconfig (hu.logCommand _ _ _)
    exact furnished_endChannel (hdrained.of_shell (shell_writeOutput _ _)) _
  refine .bind (hquiet (fun _ ↦ ⟨rfl, rfl⟩) hh) fun _ t ht ↦
    .bind (upholds_onShell hconfig (kept_execute hhost _) ht) fun result u hu ↦
    .bind (upholds_onShell hconfig (kept_finishHeredocAtEof hhost) hu) fun finished v hv ↦ ?_
  dsimp only
  split
  · exact .modify_bind (hend _ _ (furnished_logClosedHeredoc hconfig hv))
  · exact hend _ _ hv

theorem upholds_execRequest (bytes : Bytes) (hh : Furnished config h) :
    Upholds config (execRequest config host channel bytes) h := by
  rw [execRequest]
  refine .modify_bind ?_
  have hh : Furnished config (h.reply channel .success) := hh.of_shell rfl
  dsimp only
  split
  · exact .of_modify (hh.of_shell rfl)
  · exact .of_modify (furnished_endChannel ((hh.logCommand _ _ _).data _) 1)
  · exact upholds_runExec hconfig hhost _ hh

omit hhost in
theorem upholds_shellRequest (hh : Furnished config h) :
    Upholds config (shellRequest config host channel) h := by
  rw [shellRequest]
  refine .modify_bind (.get_bind (.bind (upholds_onShell hconfig
    (fun s ↦ (Kept.refl s).quiet rfl rfl) (hh.of_shell rfl)) fun _ t ht ↦ .modify_bind ?_))
  split
  · exact .of_modify (furnished_drawPrompt hconfig (ht.of_shell rfl))
  · exact .pure _ (ht.of_shell rfl)

theorem upholds_finishNoTty (hh : Furnished config h) :
    Upholds config (finishNoTty config host channel) h := by
  rw [finishNoTty]
  refine .get_bind ?_
  dsimp only
  split
  on_goal 1 => refine .bind (.pure false hh) fun ended t ht ↦ ?_
  on_goal 2 =>
    refine .bind (m := takeLine) (hh.of_shell rfl) fun line u hu ↦
      .bind (upholds_runNoTtyLine hconfig hhost line hu) fun ended t ht ↦ ?_
  -- with or without a line in progress, a here-document that is open ends here
  all_goals
    split
    · exact .pure _ ht
    refine .bind (upholds_onShell hconfig (kept_finishHeredocAtEof hhost) ht) fun output v hv ↦ ?_
    split
    · exact .pure _ hv
    · exact .modify_bind (upholds_deliver hconfig _ (furnished_logClosedHeredoc hconfig hv))

theorem upholds_channelEof (hh : Furnished config h) :
    Upholds config (channelEof config host channel) h := by
  rw [channelEof]
  refine .get_bind ?_
  split
  · exact furnished_endChannel (h := { h with scp := none }) (hh.of_shell rfl) 0
  split
  · exact furnished_endChannel (furnished_drainSftpUploads
      (furnished_onto hconfig host hh (.refl _) rfl)) 0
  split
  · split
    · exact .bind (upholds_theShell hconfig hh) fun shell t ht ↦
        .of_modify (furnished_endChannel (ht.data _) _)
    · refine .bind (upholds_finishNoTty hconfig hhost hh) fun ended t ht ↦ ?_
      split
      · exact .pure _ ht
      · exact .bind (upholds_theShell hconfig ht) fun shell u hu ↦
          .of_modify (furnished_endChannel hu _)
  · exact .pure _ hh

omit hhost in
/-- **One call.** -/
theorem upholds_handle {e : Event} (hhost : e.host.KeepsFiles) (hh : Furnished config h) :
    Upholds config (handle config e) h := by
  obtain ⟨host, channel, call⟩ := e
  cases call with
  | channelOpenSession =>
    refine .of_modify (hh.of_shell ?_)
    rw [MimicHandler.tryOpenChannel]
    split <;> rfl
  | ptyRequest => exact .of_modify (hh.of_shell rfl)
  | envRequest =>
    refine .of_modify (hh.of_shell ?_)
    rw [MimicHandler.envRequest]
    split <;> rfl
  | windowChangeRequest colWidth rowHeight =>
    refine .of_modify fun s hs ↦ ?_
    obtain ⟨u, hu, rfl⟩ := Option.map_eq_some_iff.mp hs
    refine (hh u hu).kept ?_
    split <;> exact (Kept.refl u).quiet rfl rfl
  | subsystemRequest =>
    refine .of_modify (hh.of_shell ?_)
    rw [MimicHandler.subsystemRequest]
    split <;> rfl
  | agentRequest => exact .of_modify (hh.of_shell rfl)
  | shellRequest => exact upholds_shellRequest hconfig hh
  | execRequest bytes => exact upholds_execRequest hconfig hhost bytes hh
  | data bytes => exact upholds_data hconfig hhost bytes hh
  | channelEof => exact upholds_channelEof hconfig hhost hh
  | channelClose => exact .of_modify (furnished_closeChannel hh)

end Served

/-! ### Runs -/

/-- The connection behind a call, where the commands on files are those of the source. -/
def serve (config : Config) (call : Event × Downloads.Display) (h : MimicHandler) : MimicHandler :=
  step config { call.1 with host := call.1.host.withTools call.2 } h

/-- **Whatever the client of a connection does**, in whatever order and whatever becomes of each
call, the filesystem of its shell is a tree within its caps, and the directories that the shell
holds are in it. -/
theorem connection_files (hboot : ∀ now, ∃ boot, (Vfs.new boot).Edits (config.snapshot now))
    (username : Str) (calls : List (Event × Downloads.Display)) :
    ∀ s ∈ (run (serve config) (.new username) calls).shell, s.vfs.WellFormed ∧ s.vfs.Within ∧
      ∀ x ∈ [s.cwd, s.home, s.prevCwd], x < s.vfs.nodes.length := by
  have hconfig : Snapshots config := fun now ↦ by
    obtain ⟨boot, hsnapshot⟩ := hboot now
    exact hsnapshot.wellFormed (wellFormed_new boot)
  have hrun : Furnished config (run (serve config) (.new username) calls) :=
    invariant_run (I := Furnished config) admissible_true (fun call h _ hh ↦
      ensures_snd (upholds_handle (h := h.flushed) hconfig
        (keepsFiles_withTools call.1.host call.2) hh)) (.of_none rfl)
  intro s hs
  obtain ⟨hseated, now, hedits⟩ := hrun s hs
  obtain ⟨boot, hsnapshot⟩ := hboot now
  exact ⟨hseated.wellFormed, (hsnapshot.trans hedits).within, hseated.seats⟩

/-- On a terminal, a directory is made and entered. -/
def making : List (Event × Downloads.Display) :=
  (openTerminal ++ [Call.data (Text.toUtf8 "mkdir a; cd a\r".toList)]).map fun call ↦
    (⟨bareHost, 0, call⟩, ⟨[], [], fun _ ↦ []⟩)

theorem connection_files_making :
    ((run (serve bareConfig) (.new "root".toList) making).shell.map fun s ↦
      s.vfs.pathOf s.cwd) = some "/root/a".toList ∧
    ∀ s ∈ (run (serve bareConfig) (.new "root".toList) making).shell,
      s.vfs.WellFormed ∧ s.vfs.Within ∧
        ∀ x ∈ [s.cwd, s.home, s.prevCwd], x < s.vfs.nodes.length :=
  ⟨by decide +kernel, connection_files (fun _ ↦ ⟨0, .refl _⟩) "root".toList making⟩

end Connection

end Mimic
