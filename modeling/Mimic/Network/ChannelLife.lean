import Mimic.Network.Connection

/-!
# The life of a channel

A call of the handler ends the session on its channel or leaves the channel what it is. Either way
it is said once for each function: a function that may end the session says whether it did
(`Ends`), and one that does not leaves the channel alone (`Stays`). Both are relative to what else
is left alone: a line that is run leaves the input side of a terminal as it is (`SameInput`), while
input itself changes that (`SameChannel`).

An ended session has released its channel: all that is left of it is the terminal that was asked for
and the locale variables that were accepted.
-/

namespace Mimic

namespace Connection

open Interp Outcomes

/-- The two states have the same channel and the same user. -/
structure SameOwner (h t : MimicHandler) : Prop where
  activeChannel : t.activeChannel = h.activeChannel
  username : t.username = h.username

/-- The channel is used for the same as well. -/
structure SameChannel (h t : MimicHandler) : Prop extends SameOwner h t where
  pty : t.pty = h.pty
  sftp : t.sftp.isSome = h.sftp.isSome
  scp : t.scp.isSome = h.scp.isSome

/-- The input side of a terminal is the same as well. -/
structure SameInput (h t : MimicHandler) : Prop extends SameChannel h t where
  passwordBuf : t.passwordBuf = h.passwordBuf
  screen : t.screen = h.screen

theorem SameOwner.data {h t : MimicHandler} {channel : UInt32} {bytes : Bytes}
    (ht : SameOwner h t) : SameOwner h (t.data channel bytes) := ⟨ht.activeChannel, ht.username⟩

/-- Nothing is left of a channel but the terminal asked for and the locale accepted. -/
def Released (t : MimicHandler) : Prop :=
  t = { MimicHandler.new t.username with
    ptyTerm := t.ptyTerm, acceptedEnv := t.acceptedEnv, replies := t.replies, logged := t.logged }

/-- The session on the channel was ended. -/
structure Closed (channel : UInt32) (h t : MimicHandler) : Prop where
  username : t.username = h.username
  activeChannel : t.activeChannel ≠ some channel
  released : h.activeChannel = some channel → Released t

/-- A way to be the same that includes the channel. -/
class Sameness (R : MimicHandler → MimicHandler → Prop) : Prop where
  refl : ∀ h, R h h
  trans : ∀ {h t u}, R h t → R t u → R h u
  owner : ∀ {h t}, R h t → SameOwner h t

instance : Sameness SameOwner where
  refl _ := ⟨rfl, rfl⟩
  trans ht hu := ⟨hu.activeChannel.trans ht.activeChannel, hu.username.trans ht.username⟩
  owner h := h

instance : Sameness SameChannel where
  refl _ := ⟨Sameness.refl _, rfl, rfl, rfl⟩
  trans ht hu := ⟨Sameness.trans ht.toSameOwner hu.toSameOwner, hu.pty.trans ht.pty,
    hu.sftp.trans ht.sftp, hu.scp.trans ht.scp⟩
  owner h := h.toSameOwner

instance : Sameness SameInput where
  refl _ := ⟨Sameness.refl _, rfl, rfl⟩
  trans ht hu := ⟨Sameness.trans ht.toSameChannel hu.toSameChannel,
    hu.passwordBuf.trans ht.passwordBuf, hu.screen.trans ht.screen⟩
  owner h := h.toSameOwner

/-- What is left alone by a call that does not end the session. -/
def Stays {α : Type} (R : MimicHandler → MimicHandler → Prop) (m : Act α) : Prop :=
  ∀ h, ensures (fun _ _ ↦ True) m (fun _ t ↦ R h t) h

/-- A call that says whether it ended the session on a channel. -/
def Ends (R : MimicHandler → MimicHandler → Prop) (channel : UInt32) (m : Act Bool) : Prop :=
  ∀ h, ensures (fun _ _ ↦ True) m
    (fun ended t ↦ if ended then Closed channel h t else R h t) h

section Rules

variable {α β : Type} {R : MimicHandler → MimicHandler → Prop} {config : Config} {host : Host}
  {channel : UInt32} {h t u : MimicHandler}

theorem Stays.modify {f : MimicHandler → MimicHandler} (hf : ∀ h, R h (f h)) :
    Stays R (modify f) := hf

variable [Sameness R]

theorem Closed.of_same (hu : Closed channel t u) (ht : SameOwner h t) : Closed channel h u :=
  ⟨hu.username.trans ht.username, hu.activeChannel,
    fun h ↦ hu.released (ht.activeChannel.trans h)⟩

theorem Stays.onShell (m : Run α) : Stays SameInput (onShell config host m) := by
  intro h
  rw [ensures, Connection.onShell]
  rcases m (h.theShell config host) with ⟨e | a, s⟩
  · trivial
  · exact ⟨⟨⟨rfl, rfl⟩, rfl, rfl, rfl⟩, rfl, rfl⟩

theorem Stays.bind {m : Act α} {f : α → Act β} (hm : Stays R m) (hf : ∀ a, Stays R (f a)) :
    Stays R (m >>= f) := fun h ↦
  ensures_bind.mpr (ensures_mono (fun _ _ _ ↦ trivial)
    (fun a t ht ↦ ensures_mono (fun _ _ _ ↦ trivial) (fun _ _ hu ↦ Sameness.trans ht hu) (hf a t))
    (hm h))

theorem Stays.weaken {m : Act α} (hm : Stays SameInput m) : Stays SameChannel m := fun h ↦
  ensures_mono (fun _ _ _ ↦ trivial) (fun _ _ ht ↦ ht.toSameChannel) (hm h)

theorem Ends.of_same {m : Act Bool} (ht : R h t) (hm : Ends R channel m) :
    ensures (fun _ _ ↦ True) m (fun ended u ↦ if ended then Closed channel h u else R h u) t := by
  refine ensures_mono (fun _ _ _ ↦ trivial) (fun ended u hu ↦ ?_) (hm t)
  cases ended with
  | false => exact Sameness.trans ht hu
  | true => exact Closed.of_same hu (Sameness.owner ht)

theorem Ends.bind {m : Act α} {f : α → Act Bool} (hm : Stays R m)
    (hf : ∀ a, Ends R channel (f a)) : Ends R channel (m >>= f) := fun h ↦
  ensures_bind.mpr (ensures_mono (fun _ _ _ ↦ trivial) (fun a _ ht ↦ (hf a).of_same ht) (hm h))

theorem Ends.pure_false : Ends R channel (pure false) := fun h ↦
  ensures_pure.mpr (Sameness.refl h : R h h)

theorem Ends.goesOn {m : Act α} (hm : Stays R m) : Ends R channel (m >>= fun _ ↦ pure false) :=
  .bind hm fun _ ↦ .pure_false

theorem Ends.weaken {m : Act Bool} (hm : Ends SameInput channel m) : Ends SameChannel channel m :=
  fun h ↦ ensures_mono (fun _ _ _ ↦ trivial) (fun ended t ht ↦ by
    cases ended with
    | false => exact SameInput.toSameChannel ht
    | true => exact ht) (hm h)

/-- What comes behind a call that may end the session, where it does not. -/
theorem Ends.unless {m rest : Act Bool} (hm : Ends R channel m) (hrest : Ends R channel rest) :
    Ends R channel (m >>= fun ended ↦ if ended then pure true else rest) := fun h ↦
  ensures_bind.mpr (ensures_mono (fun _ _ _ ↦ trivial) (fun ended t ht ↦ by
    cases ended with
    | false => exact hrest.of_same ht
    | true => exact ht) (hm h))

end Rules

section Methods

variable (config : Config) (host : Host) (channel : UInt32) (h : MimicHandler)

variable {R : MimicHandler → MimicHandler → Prop} [Sameness R] in
theorem foldl_same {β : Type} {f : MimicHandler → β → MimicHandler} (hf : ∀ h b, R h (f h b))
    (l : List β) (h : MimicHandler) : R h (l.foldl f h) := by
  induction l generalizing h with
  | nil => exact Sameness.refl h
  | cons b l ih => exact Sameness.trans (hf h b) (ih (f h b))

theorem drainSftpUploads_same : SameOwner h (h.drainSftpUploads config host) := by
  rw [MimicHandler.drainSftpUploads]
  split
  · exact ⟨rfl, rfl⟩
  · exact ⟨rfl, rfl⟩
  · rename_i sftp shell hsftp hshell
    have hpending : SameOwner h { h with
        sftp := none
        shell := some { shell with vfs :=
          (Sftp.intoPendingUploads (MimicHandler.ambient config host) sftp
            (MimicHandler.view shell)).1.vfs } } := ⟨rfl, rfl⟩
    exact Sameness.trans hpending (foldl_same (fun _ _ ↦ ⟨rfl, rfl⟩) _ _)

theorem closeChannel_closed : Closed channel h (h.closeChannel config host channel) := by
  rw [MimicHandler.closeChannel]
  split
  · exact ⟨(drainSftpUploads_same config host h).username, nofun, fun _ ↦ rfl⟩
  · rename_i hother
    exact ⟨rfl, hother, fun hactive ↦ absurd hactive hother⟩

theorem endChannel_closed (status : ℕ) :
    Closed channel h (h.endChannel config host channel status) := by
  have hclosed := closeChannel_closed config host channel
    (((h.reply channel (.exitStatus status)).reply channel .eof).reply channel .close)
  exact hclosed.of_same ⟨rfl, rfl⟩

theorem sameInput_writeOutput (output : Output) : SameInput h (h.writeOutput channel output) := by
  have hstdout : SameInput h (if output.stdout = [] then h
      else h.data channel (h.out output.stdout)) := by
    split
    · exact Sameness.refl h
    · exact ⟨⟨⟨rfl, rfl⟩, rfl, rfl, rfl⟩, rfl, rfl⟩
  rw [MimicHandler.writeOutput]
  split
  · split
    · exact Sameness.refl h
    · exact ⟨⟨⟨rfl, rfl⟩, rfl, rfl, rfl⟩, rfl, rfl⟩
  · generalize (if output.stdout = [] then h else h.data channel (h.out output.stdout)) = t
      at hstdout ⊢
    split
    · exact hstdout
    · exact Sameness.trans hstdout ⟨⟨⟨rfl, rfl⟩, rfl, rfl, rfl⟩, rfl, rfl⟩

theorem sameInput_logClosedHeredoc : SameInput h (h.logClosedHeredoc config host) := by
  rw [MimicHandler.logClosedHeredoc]
  split <;> exact ⟨⟨⟨rfl, rfl⟩, rfl, rfl, rfl⟩, rfl, rfl⟩

theorem sameChannel_holdScreen (screen : Screen) :
    SameChannel h (h.holdScreen config host channel screen) := by
  cases screen <;> exact ⟨⟨rfl, rfl⟩, rfl, rfl, rfl⟩

theorem sameChannel_settle : SameChannel h (h.settle config host channel) := by
  rw [MimicHandler.settle]
  split
  · rename_i screen hscreen
    have hbuilt : SameChannel h
        { h.built config host with
          shell := some { h.theShell config host with screen := none } } :=
      ⟨⟨rfl, rfl⟩, rfl, rfl, rfl⟩
    exact Sameness.trans hbuilt (sameChannel_holdScreen config host channel _ screen)
  · split
    · exact ⟨⟨rfl, rfl⟩, rfl, rfl, rfl⟩
    · split <;> exact ⟨⟨rfl, rfl⟩, rfl, rfl, rfl⟩

theorem sameInput_completeCurrentWord :
    SameInput h (h.completeCurrentWord config host channel) := by
  rw [MimicHandler.completeCurrentWord]
  split <;> exact ⟨⟨⟨rfl, rfl⟩, rfl, rfl, rfl⟩, rfl, rfl⟩

/-! ### Lines -/

theorem deliver_ends (output : Output) :
    Ends SameInput channel (deliver config host channel output) := by
  refine .bind (.modify fun h ↦ ?_) fun _ ↦ ?_
  · have hdrain : SameInput h (h.drainCaptures config host) :=
      ⟨⟨⟨rfl, rfl⟩, rfl, rfl, rfl⟩, rfl, rfl⟩
    exact Sameness.trans hdrain (sameInput_writeOutput channel _ output)
  · split
    · exact fun h ↦ endChannel_closed config host channel h (asU32 output.status)
    · exact .pure_false

theorem answer_ends (line : Str) : Ends SameInput channel (answer config host channel line) :=
  .bind (.onShell _) fun output ↦
    .bind (.modify (sameInput_logClosedHeredoc config host)) fun _ ↦
      deliver_ends config host channel output

theorem submitLine_ends (line : Str) :
    Ends SameInput channel (submitLine config host channel line) := by
  have hrest : Ends SameInput channel (do
      let result ← onShell config host (Interp.execute host (Interp.levels host) (Text.trim line))
      let shell ← theShell config host
      if Text.trim line ≠ [] ∧ ¬ shell.pending.any Pending.echoes then
        modify fun h ↦
          h.logCommand (Text.trim line) (if h.pty then .interactive else .pipe) (some result.status)
      deliver config host channel result) := by
    refine .bind (.onShell _) fun result ↦ .bind (.onShell _) fun shell ↦ ?_
    split
    · exact .bind (.modify fun h ↦ ⟨⟨⟨rfl, rfl⟩, rfl, rfl, rfl⟩, rfl, rfl⟩) fun _ ↦
        deliver_ends config host channel _
    · exact deliver_ends config host channel result
  rw [submitLine]
  dsimp only
  split
  · exact .bind (.onShell _) fun _ ↦ hrest
  · exact hrest

theorem runNoTtyLine_ends (line : Str) :
    Ends SameInput channel (runNoTtyLine config host channel line) := by
  refine .bind (.onShell _) fun shell ↦ ?_
  split
  · exact answer_ends config host channel line
  · exact submitLine_ends config host channel line

theorem takeLine_stays : Stays SameInput takeLine := fun _ ↦
  ⟨⟨⟨rfl, rfl⟩, rfl, rfl, rfl⟩, rfl, rfl⟩

/-! ### Bytes -/

theorem submitted_ends (line : Str) :
    Ends SameChannel channel (submitted config host channel line) := by
  refine .bind (Stays.onShell _).weaken fun shell ↦ ?_
  have hsettle : Ends SameChannel channel (modify (fun h ↦ h.settle config host channel) >>=
      fun _ ↦ pure false) := .goesOn (.modify (sameChannel_settle config host channel))
  split
  · exact (answer_ends config host channel line).weaken.unless hsettle
  · exact (submitLine_ends config host channel line).weaken.unless hsettle

theorem inputPassword_ends (typed : Bytes) (byte : UInt8) :
    Ends SameChannel channel (inputPassword config host channel typed byte) := by
  have hset : ∀ {f : MimicHandler → MimicHandler}, (∀ h, SameChannel h (f h)) →
      Ends SameChannel channel (modify f >>= fun _ ↦ pure false) := fun hf ↦ .goesOn (.modify hf)
  rw [inputPassword]
  split
  · refine .bind (.modify fun h ↦ ⟨⟨rfl, rfl⟩, rfl, rfl, rfl⟩) fun _ ↦
      .bind (Stays.onShell _).weaken fun output ↦ ?_
    refine (deliver_ends config host channel output).weaken.unless
      (.bind (Stays.onShell _).weaken fun shell ↦ ?_)
    split
    · exact hset fun h ↦ ⟨⟨rfl, rfl⟩, rfl, rfl, rfl⟩
    · exact hset fun h ↦ ⟨⟨rfl, rfl⟩, rfl, rfl, rfl⟩
  split
  · exact .bind (Stays.onShell _).weaken fun _ ↦ hset fun h ↦ ⟨⟨rfl, rfl⟩, rfl, rfl, rfl⟩
  split
  · exact hset fun h ↦ ⟨⟨rfl, rfl⟩, rfl, rfl, rfl⟩
  split
  · exact hset fun h ↦ ⟨⟨rfl, rfl⟩, rfl, rfl, rfl⟩
  · exact .pure_false

theorem inputByte_eq (byte : UInt8) (h : MimicHandler) :
    inputByte config host channel byte h =
      match h.passwordBuf with
      | some typed => inputPassword config host channel typed byte h
      | none => inputLine config host channel byte h := by
  rw [inputByte, bind_apply]
  show (match h.passwordBuf with
    | some typed => inputPassword config host channel typed byte
    | none => inputLine config host channel byte) h = _
  rcases h.passwordBuf with - | typed <;> rfl

theorem inputLine_eq (byte : UInt8) (h : MimicHandler) :
    inputLine config host channel byte h =
      match h.editor.input byte with
      | (.ignore, editor) => (.ok false, { h with editor := editor })
      | (.write bytes, editor) => (.ok false, { h with editor := editor }.data channel bytes)
      | (.complete, editor) =>
        (.ok false, { h with editor := editor }.completeCurrentWord config host channel)
      | (.eof, editor) =>
        (.ok true, (({ h with editor := editor }.built config host).data channel
          (h.out Interp.logout)).endChannel config host channel
            (asU32 ({ h with editor := editor }.theShell config host).lastStatus))
      | (.submit echo line, editor) =>
        submitted config host channel line ({ h with editor := editor }.data channel echo) := by
  rw [inputLine, bind_apply]
  show (set { h with editor := (h.editor.input byte).2 } >>= fun _ ↦ _ : Act Bool) h = _
  rcases h.editor.input byte with ⟨- | bytes | ⟨echo, line⟩ | - | -, editor⟩ <;> rfl

theorem inputLine_ends (byte : UInt8) :
    Ends SameChannel channel (inputLine config host channel byte) := by
  intro h
  rw [ensures, inputLine_eq]
  rcases h.editor.input byte with ⟨- | bytes | ⟨echo, line⟩ | - | -, editor⟩
  · exact ⟨⟨rfl, rfl⟩, rfl, rfl, rfl⟩
  · exact ⟨⟨rfl, rfl⟩, rfl, rfl, rfl⟩
  · have hechoed : SameChannel h ({ h with editor := editor }.data channel echo) :=
      ⟨⟨rfl, rfl⟩, rfl, rfl, rfl⟩
    have hsubmitted := (submitted_ends config host channel line).of_same hechoed
    rw [ensures] at hsubmitted
    exact hsubmitted
  · have hended := endChannel_closed config host channel
      (({ h with editor := editor }.built config host).data channel (h.out Interp.logout))
      (asU32 ({ h with editor := editor }.theShell config host).lastStatus)
    exact hended.of_same ⟨rfl, rfl⟩
  · have hedited : SameChannel h { h with editor := editor } := ⟨⟨rfl, rfl⟩, rfl, rfl, rfl⟩
    exact Sameness.trans hedited
      (sameInput_completeCurrentWord config host channel _).toSameChannel

/-- **One byte.** -/
theorem inputByte_ends (byte : UInt8) :
    Ends SameChannel channel (inputByte config host channel byte) := by
  intro h
  rw [ensures, inputByte_eq]
  rcases h.passwordBuf with - | typed
  · exact inputLine_ends config host channel byte h
  · exact inputPassword_ends config host channel typed byte h

end Methods

/-! ### Calls -/

/-- The session on the channel was ended, or it goes on. -/
def Leaves {α : Type} (R : MimicHandler → MimicHandler → Prop) (channel : UInt32) (m : Act α) :
    Prop :=
  ∀ h, ensures (fun _ _ ↦ True) m (fun _ t ↦ Closed channel h t ∨ R h t) h

/-- The session on the channel was ended. -/
def Closes {α : Type} (channel : UInt32) (m : Act α) : Prop :=
  ∀ h, ensures (fun _ _ ↦ True) m (fun _ t ↦ Closed channel h t) h

section Leaving

variable {α β : Type} {R : MimicHandler → MimicHandler → Prop} {channel : UInt32}
  {h t u : MimicHandler} {m : Act α}

theorem Leaves.pure [Sameness R] (a : α) : Leaves R channel (pure a) := fun h ↦
  ensures_pure.mpr (.inr (Sameness.refl h))

theorem Leaves.modify {f : MimicHandler → MimicHandler} (hf : ∀ h, R h (f h)) :
    Leaves R channel (modify f) := fun h ↦ .inr (hf h)

theorem Leaves.owner [Sameness R] (hm : Leaves R channel m) : Leaves SameOwner channel m := fun h ↦
  ensures_mono (fun _ _ _ ↦ trivial) (fun _ _ ht ↦ ht.imp_right Sameness.owner) (hm h)

theorem Closes.modify {f : MimicHandler → MimicHandler} (hf : ∀ h, Closed channel h (f h)) :
    Closes channel (modify f) := hf

theorem Closes.leaves (hm : Closes channel m) : Leaves R channel m := fun h ↦
  ensures_mono (fun _ _ _ ↦ trivial) (fun _ _ ht ↦ .inl ht) (hm h)

theorem Closes.of_owner (ht : SameOwner h t) (hm : Closes channel m) :
    ensures (fun _ _ ↦ True) m (fun _ u ↦ Closed channel h u) t :=
  ensures_mono (fun _ _ _ ↦ trivial) (fun _ _ hu ↦ hu.of_same ht) (hm t)

variable [Sameness R]

theorem Leaves.of_same (ht : R h t) (hm : Leaves R channel m) :
    ensures (fun _ _ ↦ True) m (fun _ u ↦ Closed channel h u ∨ R h u) t :=
  ensures_mono (fun _ _ _ ↦ trivial)
    (fun _ _ hu ↦ hu.imp (fun hu ↦ hu.of_same (Sameness.owner ht)) (Sameness.trans ht)) (hm t)

theorem Leaves.bind {f : α → Act β} (hm : Stays R m) (hf : ∀ a, Leaves R channel (f a)) :
    Leaves R channel (m >>= f) := fun h ↦
  ensures_bind.mpr (ensures_mono (fun _ _ _ ↦ trivial) (fun a _ ht ↦ (hf a).of_same ht) (hm h))

theorem Leaves.unless {m : Act Bool} {rest : Act Unit} (hm : Ends R channel m)
    (hrest : Leaves R channel rest) :
    Leaves R channel (m >>= fun ended ↦ if ended then Pure.pure () else rest) := fun h ↦
  ensures_bind.mpr (ensures_mono (fun _ _ _ ↦ trivial) (fun ended t ht ↦ by
    cases ended with
    | false => exact hrest.of_same ht
    | true => exact .inl ht) (hm h))

theorem Closes.bind {f : α → Act β} (hm : Stays R m) (hf : ∀ a, Closes channel (f a)) :
    Closes channel (m >>= f) := fun h ↦
  ensures_bind.mpr (ensures_mono (fun _ _ _ ↦ trivial)
    (fun a _ ht ↦ (hf a).of_owner (Sameness.owner ht)) (hm h))

theorem Closes.unless {m : Act Bool} {rest : Act Unit} (hm : Ends R channel m)
    (hrest : Closes channel rest) :
    Closes channel (m >>= fun ended ↦ if ended then pure () else rest) := fun h ↦
  ensures_bind.mpr (ensures_mono (fun _ _ _ ↦ trivial) (fun ended t ht ↦ by
    cases ended with
    | false => exact hrest.of_owner (Sameness.owner ht)
    | true => exact ht) (hm h))

end Leaving

section Calls

variable (config : Config) (host : Host) (channel : UInt32)

theorem feedNoTty_leaves (bytes : Bytes) :
    Leaves SameInput channel (feedNoTty config host channel bytes) := by
  induction bytes with
  | nil => exact .pure ()
  | cons byte bytes ih =>
    rw [feedNoTty]
    split
    · exact ih
    split
    · exact .bind takeLine_stays fun line ↦
        .unless (runNoTtyLine_ends config host channel line) ih
    · refine .bind (.modify fun h ↦ ?_) fun _ ↦ ih
      split <;> exact ⟨⟨⟨rfl, rfl⟩, rfl, rfl, rfl⟩, rfl, rfl⟩

theorem inputBytes_leaves (bytes : Bytes) :
    Leaves SameChannel channel (inputBytes config host channel bytes) := by
  induction bytes with
  | nil => exact .pure ()
  | cons byte bytes ih => exact .unless (inputByte_ends config host channel byte) ih

theorem feedTty_leaves (bytes : Bytes) :
    Leaves SameChannel channel (feedTty config host channel bytes) := by
  intro h
  rw [feedTty, ensures_bind, ensures_get]
  split
  · exact inputBytes_leaves config host channel bytes h
  · split
    · exact .inr ⟨⟨rfl, rfl⟩, rfl, rfl, rfl⟩
    · rw [ensures_bind, ensures_set]
      exact (inputBytes_leaves config host channel _).of_same ⟨⟨rfl, rfl⟩, rfl, rfl, rfl⟩

theorem sameOwner_feedSftp (sftp : Sftp.SftpSession) (bytes : Bytes) (h : MimicHandler) :
    SameOwner h (h.feedSftp config host channel sftp bytes) := by
  have hfold : ∀ (t : MimicHandler) (uploads : List Sftp.CompletedUpload), SameOwner h t →
      SameOwner h (uploads.foldl MimicHandler.storeSftpUpload t) := fun t uploads ht ↦
    Sameness.trans ht (foldl_same (fun _ _ ↦ ⟨rfl, rfl⟩) uploads t)
  rw [MimicHandler.feedSftp]
  split
  · exact hfold _ _ ⟨rfl, rfl⟩
  · exact SameOwner.data (hfold _ _ ⟨rfl, rfl⟩)

theorem sameOwner_feedScp (sink : Scp.ScpSink) (bytes : Bytes) (h : MimicHandler) :
    SameOwner h (h.feedScp config host channel sink bytes) := by
  have hfold : ∀ (t : MimicHandler) (files : List Scp.CompletedFile), SameOwner h t →
      SameOwner h (files.foldl (fun h file ↦ h.storeUpload config host file) t) := fun t files ht ↦
    Sameness.trans ht (foldl_same (fun _ _ ↦ ⟨rfl, rfl⟩) files t)
  rw [MimicHandler.feedScp]
  split
  · exact hfold _ _ ⟨rfl, rfl⟩
  · exact SameOwner.data (hfold _ _ ⟨rfl, rfl⟩)

theorem data_eq (bytes : Bytes) (h : MimicHandler) :
    data config host channel bytes h =
      match h.sftp, h.scp with
      | some sftp, _ => (.ok (), h.feedSftp config host channel sftp bytes)
      | none, some sink => (.ok (), h.feedScp config host channel sink bytes)
      | none, none =>
        if h.pty then feedTty config host channel bytes h
        else feedNoTty config host channel bytes h := by
  rw [data, bind_apply]
  show (match h.sftp, h.scp with
    | some sftp, _ => set (h.feedSftp config host channel sftp bytes)
    | none, some sink => set (h.feedScp config host channel sink bytes)
    | none, none =>
      if h.pty then feedTty config host channel bytes
      else feedNoTty config host channel bytes : Act Unit) h = _
  rcases h.sftp with - | sftp
  · rcases h.scp with - | sink
    · dsimp only
      split <;> rfl
    · rfl
  · rfl

theorem data_leaves (bytes : Bytes) :
    Leaves SameOwner channel (data config host channel bytes) := by
  intro h
  rw [ensures, data_eq]
  rcases h.sftp with - | sftp
  · rcases h.scp with - | sink
    · dsimp only
      cases h.pty
      · exact (feedNoTty_leaves config host channel bytes).owner h
      · exact (feedTty_leaves config host channel bytes).owner h
    · exact .inr (sameOwner_feedScp config host channel sink bytes h)
  · exact .inr (sameOwner_feedSftp config host channel sftp bytes h)

theorem runExec_closes (cmd : Str) : Closes channel (runExec config host channel cmd) := by
  have hrest : ∀ result : Output, Closes channel (do
      onShell config host (modify fun s ↦ s.withPending none)
      modify fun h ↦ ((h.logCommand cmd .exec (some result.status)).drainCaptures config
        host).writeOutput channel result
      modify fun h ↦ h.endChannel config host channel (asU32 result.status)) := by
    refine fun result ↦ .bind (.onShell _) fun _ ↦ .bind (R := SameInput) (.modify fun h ↦ ?_)
      fun _ ↦ .modify fun h ↦ endChannel_closed config host channel h _
    have hlogged : SameInput h ((h.logCommand cmd .exec (some result.status)).drainCaptures config
      host) := ⟨⟨⟨rfl, rfl⟩, rfl, rfl, rfl⟩, rfl, rfl⟩
    exact Sameness.trans hlogged (sameInput_writeOutput channel _ result)
  rw [runExec]
  refine .bind (.onShell _) fun _ ↦ .bind (.onShell _) fun result ↦
    .bind (.onShell _) fun finished ↦ ?_
  split
  · exact .bind (.modify (sameInput_logClosedHeredoc config host)) fun _ ↦ hrest _
  · exact hrest _

theorem execRequest_leaves (bytes : Bytes) :
    Leaves SameOwner channel (execRequest config host channel bytes) := by
  refine .bind (.modify fun h ↦ ⟨rfl, rfl⟩) fun _ ↦ ?_
  dsimp only
  split
  · exact .modify fun h ↦ ⟨rfl, rfl⟩
  · exact Closes.leaves (.modify fun h ↦
      (endChannel_closed config host channel _ 1).of_same ⟨rfl, rfl⟩)
  · exact (runExec_closes config host channel _).leaves

theorem shellRequest_leaves : Leaves SameOwner channel (shellRequest config host channel) := by
  refine .bind (.modify fun h ↦ ⟨rfl, rfl⟩) fun _ ↦ .bind (fun h ↦ ⟨rfl, rfl⟩) fun h ↦ ?_
  have hshell : Stays SameOwner (onShell config host (modify fun s ↦
      { s with interactive := h.pty })) := fun h' ↦
    ensures_mono (fun _ _ _ ↦ trivial) (fun _ _ ht ↦ ht.toSameOwner) (Stays.onShell _ h')
  refine .bind hshell fun _ ↦ .bind (.modify fun h ↦ ⟨rfl, rfl⟩) fun _ ↦ ?_
  split
  · exact .modify fun h ↦ ⟨rfl, rfl⟩
  · exact .pure ()

/-- What is behind the last line of the input ends nothing but the connection. -/
theorem finishHeredocAtEof_ends : Ends SameInput channel (do
    match ← onShell config host (Interp.finishHeredocAtEof host) with
    | none => return false
    | some output =>
      modify fun h ↦ h.logClosedHeredoc config host
      deliver config host channel output) := by
  refine .bind (.onShell _) fun finished ↦ ?_
  split
  · exact .pure_false
  · exact .bind (.modify (sameInput_logClosedHeredoc config host)) fun _ ↦
      deliver_ends config host channel _

theorem finishNoTty_ends : Ends SameInput channel (finishNoTty config host channel) := by
  rw [finishNoTty]
  refine .bind (R := SameInput) (fun h ↦ Sameness.refl (R := SameInput) h) fun h ↦ ?_
  split
  · exact Ends.unless .pure_false (finishHeredocAtEof_ends config host channel)
  · exact .bind takeLine_stays fun line ↦ (runNoTtyLine_ends config host channel line).unless
      (finishHeredocAtEof_ends config host channel)

variable {channel} in
/-- The end of file ends the session, where it means something to the channel. -/
theorem channelEof_cases {h t : MimicHandler}
    (hrun : channelEof config host channel h = (.ok (), t)) : Closed channel h t ∨ t = h := by
  have hlast : ∀ f : MimicHandler → MimicHandler, (∀ h, SameOwner h (f h)) →
      Closes channel (theShell config host >>= fun shell ↦ modify fun h ↦
        (f h).endChannel config host channel (asU32 shell.lastStatus)) := fun f hf ↦
    .bind (.onShell _) fun shell ↦ .modify fun h ↦
      (endChannel_closed config host channel _ _).of_same (hf h)
  suffices hends : ensures (fun _ _ ↦ True) (channelEof config host channel)
      (fun _ t ↦ Closed channel h t ∨ t = h) h from
    ensures_ok (Q := fun _ t ↦ Closed channel h t ∨ t = h) hrun hends
  rw [channelEof, ensures_bind, ensures_get]
  split
  · exact .inl ((endChannel_closed config host channel _ 0).of_same ⟨rfl, rfl⟩)
  split
  · have hdrained := drainSftpUploads_same config host (h.built config host)
    exact .inl ((endChannel_closed config host channel _ 0).of_same
      ⟨hdrained.activeChannel, hdrained.username⟩)
  split
  · have hcloses : ∀ {m : Act Unit}, Closes channel m →
        ensures (fun _ _ ↦ True) m (fun _ t ↦ Closed channel h t ∨ t = h) h := fun hm ↦
      ensures_mono (fun _ _ _ ↦ trivial) (fun _ _ ht ↦ .inl ht) (hm h)
    split
    · exact hcloses (hlast (fun h ↦ h.data channel (h.out Interp.logout)) fun _ ↦ ⟨rfl, rfl⟩)
    · exact hcloses (.unless (finishNoTty_ends config host channel)
        (hlast id fun _ ↦ ⟨rfl, rfl⟩))
  · exact .inr rfl

/-- **One call**, other than the opening of a channel. -/
theorem handle_leaves {e : Event} (he : e.call ≠ .channelOpenSession) :
    Leaves SameOwner e.channel (handle config e) := by
  rw [handle]
  split
  · rename_i hcall
    exact absurd hcall he
  · exact .modify fun h ↦ ⟨rfl, rfl⟩
  · refine .modify fun h ↦ ?_
    rw [MimicHandler.envRequest]
    split <;> exact ⟨rfl, rfl⟩
  · exact .modify fun h ↦ ⟨rfl, rfl⟩
  · refine .modify fun h ↦ ?_
    rw [MimicHandler.subsystemRequest]
    split <;> exact ⟨rfl, rfl⟩
  · exact .modify fun h ↦ ⟨rfl, rfl⟩
  · exact shellRequest_leaves config e.host e.channel
  · exact execRequest_leaves config e.host e.channel _
  · exact data_leaves config e.host e.channel _
  · intro h
    rcases hr : channelEof config e.host e.channel h with ⟨stop | ⟨⟩, t⟩
    · rw [ensures, hr]
      trivial
    · refine ensures_of_ok hr ((channelEof_cases config e.host hr).imp_right fun ht ↦ ?_)
      rw [ht]
      exact Sameness.refl h
  · exact Closes.leaves (.modify fun h ↦ closeChannel_closed config e.host e.channel h)

end Calls

end Connection

end Mimic
