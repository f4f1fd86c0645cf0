import Mimic.Network.Handler

/-!
# The end of a channel

`feed` stops early when the responses of one call reach their limit, and leaves the frames it has
not read for the next call. The end of a channel is not such a call: it finalizes the handles that
are open and drops the buffer. So the frames that were queued are lost (`queued_frames_lost`).

Where the last call before the end read all there was, nothing is: the uploads handed over and the
filesystem are those of a session that handles every frame at once (`no_request_lost`).
-/

namespace Mimic

namespace Ssh

namespace Handler

open Wire BigEndian Sftp GuardedRun

variable (config : Config) (ambient : Ambient) (channel : UInt32) (chunks frames : List Bytes)
  (h : Handler)

/-- Chunks of a channel, as they arrive. -/
def arrivals : List Event := chunks.map fun bytes ↦ ⟨ambient, .data channel bytes ⟨none, false⟩⟩

/-- A session that handles frames at once, without a limit on the responses. -/
def reference : Exchange :=
  handlePackets ambient config.maxUploadBytes frames
    ⟨SftpSession.new, h.theShell config ambient, [], []⟩

/-- The reference session at the end of the channel: the shell, and the uploads that were open. -/
def referenceEnd : Shell × List CompletedUpload :=
  intoPendingUploads ambient (h.reference config ambient frames).session
    (h.reference config ambient frames).shell

/-- The calls that end a channel with an SFTP session: its end of file, or its close. -/
inductive Ends : Call → Prop
  | eof (outcome : Outcome) (hscp : h.scp = false) : Ends (.channelEof channel outcome)
  | close (hactive : h.activeChannel = some channel) : Ends (.channelClose channel)

/-- The connection `h`, which started as `h₀`, with the session, the shell and the uploads of an
exchange. -/
structure Holds (h₀ : Handler) (x : Exchange) : Prop where
  sftp : h.sftp = some x.session
  shell : h.theShell config ambient = x.shell
  stored : h.stored = h₀.stored ++ x.completed
  scp : h.scp = h₀.scp
  activeChannel : h.activeChannel = h₀.activeChannel
  inv : Inv h

variable {config ambient channel chunks frames h} {h₀ : Handler} {x : Exchange}

theorem endChannel_stored {sent : Bool} (hsftp : h.sftp = none) :
    (h.endChannel ambient channel sent).stored = h.stored := by
  have hdrain : h.drainSftpUploads ambient = h := by rw [drainSftpUploads, hsftp]
  rw [endChannel, closeChannel, hdrain]
  split
  · split <;> rfl
  · rfl

namespace Holds

/-- **One chunk.** -/
theorem data (hx : Holds config ambient h h₀ x) (bytes : Bytes) (outcome : Outcome) :
    Holds config ambient (h.data config ambient channel bytes outcome) h₀
      (deliver ambient config.maxUploadBytes bytes x) := by
  have hdata : h.data config ambient channel bytes outcome =
      { h with
        sftp := some (feed ambient config.maxUploadBytes bytes x.session x.shell).session
        shell := some (feed ambient config.maxUploadBytes bytes x.session x.shell).shell
        stored := h.stored ++
          (feed ambient config.maxUploadBytes bytes x.session x.shell).completed } := by
    rw [Handler.data, hx.sftp, ← hx.shell]
  rw [hdata]
  refine ⟨rfl, rfl, ?_, hx.scp, hx.activeChannel, inv_of_shell rfl⟩
  rw [hx.stored, List.append_assoc]
  rfl

/-- All chunks. -/
theorem arrivals (hx : Holds config ambient h h₀ x) (channel : UInt32) (chunks : List Bytes) :
    Holds config ambient (run (step config) h (arrivals ambient channel chunks)) h₀
      (deliverAll ambient config.maxUploadBytes chunks x) := by
  induction chunks generalizing h x with
  | nil => exact hx
  | cons bytes chunks ih => exact ih (hx.data bytes ⟨none, false⟩)

/-- The drain. Without a shell nothing was fed to the session. -/
theorem drain (hx : Holds config ambient h h₀ x) :
    (h.drainSftpUploads ambient).theShell config ambient =
      (intoPendingUploads ambient x.session x.shell).1 ∧
    (h.drainSftpUploads ambient).stored =
      h₀.stored ++ (x.completed ++ (intoPendingUploads ambient x.session x.shell).2) := by
  have hshell := hx.shell
  rw [drainSftpUploads, hx.sftp]
  split
  · rename_i hnone
    cases hnone
  · rename_i s hsome hnone
    have hempty : intoPendingUploads ambient x.session x.shell = (x.shell, []) := by
      rw [intoPendingUploads, hx.inv hnone x.session hx.sftp]
      rfl
    rw [hempty, List.append_nil]
    exact ⟨hshell, hx.stored⟩
  · rename_i s shell hsome hsome'
    obtain rfl : x.session = s := Option.some.inj hsome
    rw [theShell, hsome', Option.getD_some] at hshell
    rw [hshell]
    refine ⟨rfl, ?_⟩
    show h.stored ++ _ = _
    rw [hx.stored, List.append_assoc]

/-- Either end of the channel drains. -/
theorem ends (hx : Holds config ambient h h₀ x) {call : Call} (hcall : Ends channel h₀ call) :
    (step config ⟨ambient, call⟩ h).stored =
      h₀.stored ++ (x.completed ++ (intoPendingUploads ambient x.session x.shell).2) := by
  cases hcall with
  | eof outcome hscp =>
    have hbuilt : Holds config ambient { h with shell := some (h.theShell config ambient) } h₀ x :=
      ⟨hx.sftp, hx.shell, hx.stored, hx.scp, hx.activeChannel, inv_of_shell rfl⟩
    obtain ⟨-, hdrained, -⟩ := drainSftpUploads_spec ambient
      { h with shell := some (h.theShell config ambient) }
    show (h.channelEof config ambient channel outcome).stored = _
    rw [channelEof, if_neg (by rw [hx.scp, hscp]; decide), if_pos (by rw [hx.sftp]; rfl),
      endChannel_stored hdrained]
    exact hbuilt.drain.2
  | close hactive =>
    show (h.closeChannel ambient channel).stored = _
    rw [closeChannel, if_pos (hx.activeChannel.trans hactive)]
    exact hx.drain.2

end Holds

/-- The last of the chunks, after those before it, is answered within the limit as long as a
complete frame follows. -/
def LastDrains (config : Config) (ambient : Ambient) (channel : UInt32) (chunks : List Bytes)
    (h : Handler) : Prop :=
  ∀ before last, chunks = before ++ [last] →
    ∀ s, (run (step config) h (arrivals ambient channel before)).sftp = some s →
      (feedCall config ambient last
        (run (step config) h (arrivals ambient channel before))).Drains s

/-- **No request is lost at the end of a channel** whose last call drained the buffer. Take a new
session and any chunks that make up frames, with an incomplete frame behind them. After its end of
file or its close the uploads handed over are those of the reference session, and the filesystem as
the drain leaves it is the same. -/
theorem no_request_lost (config : Config) (ambient : Ambient) (channel : UInt32)
    {frames chunks : List Bytes} {tail : Bytes} {h : Handler} {call : Call}
    (hsftp : h.sftp = some SftpSession.new)
    (hframes : ∀ pkt ∈ frames, pkt.length ≤ maxSftpPacketLen) (htail : Incomplete tail)
    (hstream : chunks.flatten = wire frames ++ tail) (hcall : Ends channel h call)
    (hlast : LastDrains config ambient channel chunks h) :
    (run (step config) h (arrivals ambient channel chunks ++ [⟨ambient, call⟩])).stored =
      h.stored ++ ((h.reference config ambient frames).completed ++
        (h.referenceEnd config ambient frames).2) ∧
    ((run (step config) h (arrivals ambient channel chunks)).drainSftpUploads ambient).theShell
      config ambient = (h.referenceEnd config ambient frames).1 := by
  have hstart : Holds config ambient h h ⟨SftpSession.new, h.theShell config ambient, [], []⟩ :=
    ⟨hsftp, rfl, (List.append_nil _).symm, rfl, rfl,
      fun _ s hs ↦ by rw [← Option.some.inj (hsftp.symm.trans hs)]; rfl⟩
  have hheld := hstart.arrivals channel chunks
  have hnone : nextPacket (deliverAll ambient config.maxUploadBytes chunks
      ⟨SftpSession.new, h.theShell config ambient, [], []⟩).session.buf = none := by
    rcases List.eq_nil_or_concat chunks with rfl | ⟨before, last, rfl⟩
    · rfl
    · rw [List.concat_eq_append] at hlast ⊢
      have hbefore := hstart.arrivals channel before
      have hdrains := FeedCall.drains_iff.1 (hlast before last rfl _ hbefore.sftp)
      rw [feedCall, hbefore.shell] at hdrains
      rw [deliverAll, List.foldl_append]
      exact hdrains
  have hall : deliverAll ambient config.maxUploadBytes chunks
      ⟨SftpSession.new, h.theShell config ambient, [], []⟩ =
        (h.reference config ambient frames).retain tail := by
    have hno : chunks = chunks ++ List.replicate 0 [] := (List.append_nil _).symm
    rw [hno] at hnone ⊢
    exact (deliverAll_drain (x := ⟨SftpSession.new, h.theShell config ambient, [], []⟩) hframes
      htail hstream 0).2 hnone
  rw [hall] at hheld
  refine ⟨?_, hheld.drain.1⟩
  rw [run_append]
  exact hheld.ends hcall

/-- A channel on an empty filesystem, with a new session. -/
def fresh : Handler :=
  ⟨some 0, some ⟨Vfs.new 0, 0, 0, 0⟩, false, false, some SftpSession.new, []⟩

theorem no_request_lost_fresh :
    (run (step testConfig) fresh (arrivals ⟨0, id⟩ 0 [wire (sparseUpload.map Request.pkt)] ++
      [⟨⟨0, id⟩, .channelEof 0 ⟨none, true⟩⟩])).stored.length = 1 ∧
    (run (step testConfig) fresh (arrivals ⟨0, id⟩ 0 [wire (sparseUpload.map Request.pkt)] ++
      [⟨⟨0, id⟩, .channelEof 0 ⟨none, true⟩⟩])).stored =
        [] ++ ((fresh.reference testConfig ⟨0, id⟩ (sparseUpload.map Request.pkt)).completed ++
          (fresh.referenceEnd testConfig ⟨0, id⟩ (sparseUpload.map Request.pkt)).2) := by
  refine ⟨by decide +kernel, (no_request_lost testConfig ⟨0, id⟩ 0 (h := fresh) rfl (by decide)
    incomplete_nil (by decide) (.eof _ rfl) ?_).1⟩
  intro before last hchunks s hs
  obtain ⟨rfl, hlast⟩ : before = [] ∧ [last] = [wire (sparseUpload.map Request.pkt)] :=
    List.append_eq_singleton_iff.1 hchunks.symm |>.resolve_right nofun
  obtain rfl : last = wire (sparseUpload.map Request.pkt) := List.singleton_inj.1 hlast
  obtain rfl : SftpSession.new = s := Option.some.inj hs
  exact FeedCall.drains_iff.2 (by decide +kernel)

/-! ### A burst before the end -/

/-- A target so long that four responses with it, which repeat it, reach the limit. -/
def longTarget : Str := List.replicate 131072 'a'

/-- A channel whose shell has a link `/l` to it. -/
def linked : Handler :=
  ⟨some 0, some (linkShell longTarget), false, false, some SftpSession.new, []⟩

/-- Four requests for the link, then an upload. -/
def burst : List Bytes := List.replicate 4 readlinkRequest ++ sparseUpload.map Request.pkt

/-- Requests that are only answered. -/
theorem handlePackets_replicate {ambient : Ambient} {maxUploadBytes : ℕ} {shell : Shell}
    {pkt f : Bytes} (hpkt : ∀ x : Exchange, x.shell = shell →
      handlePacket ambient maxUploadBytes pkt x = { x with out := x.out ++ f }) (n : ℕ)
    (x : Exchange) (hx : x.shell = shell) :
    handlePackets ambient maxUploadBytes (List.replicate n pkt) x =
      { x with out := x.out ++ (List.replicate n f).flatten } := by
  induction n generalizing x with
  | zero => exact (congrArg (fun out ↦ { x with out := out }) (List.append_nil _)).symm
  | succ n ih =>
    rw [List.replicate_succ]
    show handlePackets _ _ _ (handlePacket _ _ _ x) = _
    rw [hpkt x hx, ih ⟨x.session, x.shell, x.out ++ f, x.completed⟩ hx, List.replicate_succ,
      List.flatten_cons, List.append_assoc]

/-- The requests for the link leave what follows them as it is. -/
theorem handlePackets_burst {ambient : Ambient} {maxUploadBytes : ℕ} {shell : Shell}
    {pkt f : Bytes} (hpkt : ∀ x : Exchange, x.shell = shell →
      handlePacket ambient maxUploadBytes pkt x = { x with out := x.out ++ f }) (n : ℕ)
    (pkts : List Bytes) :
    handlePackets ambient maxUploadBytes (List.replicate n pkt ++ pkts)
        ⟨SftpSession.new, shell, [], []⟩ =
      (handlePackets ambient maxUploadBytes pkts ⟨SftpSession.new, shell, [], []⟩).rebase []
        (List.replicate n f).flatten [] := by
  have hsplit : handlePackets ambient maxUploadBytes (List.replicate n pkt ++ pkts)
      ⟨SftpSession.new, shell, [], []⟩ = handlePackets ambient maxUploadBytes pkts
        (handlePackets ambient maxUploadBytes (List.replicate n pkt)
          ⟨SftpSession.new, shell, [], []⟩) := List.foldl_append
  rw [hsplit, handlePackets_replicate hpkt n _ rfl, ← handlePackets_rebase, Exchange.rebase,
    List.append_nil]
  rfl

theorem exists_handlePacket_longTarget : ∃ f : Bytes, f.length = 262169 ∧
    ∀ x : Exchange, x.shell = linkShell longTarget →
      handlePacket ⟨0, id⟩ 1024 readlinkRequest x = { x with out := x.out ++ f } := by
  obtain ⟨f, hlen, hf⟩ := putNamePkt_target longTarget
  rw [longTarget, length_toUtf8_replicate] at hlen
  refine ⟨f, hlen, fun x hx ↦ ?_⟩
  rw [handlePacket_readlink _ _ longTarget x hx, hf]

/-- The reference session finds the upload open at the end. -/
theorem length_referenceEnd_burst :
    (linked.referenceEnd testConfig ⟨0, id⟩ burst).2.length = 1 := by
  obtain ⟨f, -, hf⟩ := exists_handlePacket_longTarget
  have hupload : (intoPendingUploads ⟨0, id⟩ (handlePackets ⟨0, id⟩ 1024
      (sparseUpload.map Request.pkt) ⟨SftpSession.new, linkShell longTarget, [], []⟩).session
      (handlePackets ⟨0, id⟩ 1024 (sparseUpload.map Request.pkt)
        ⟨SftpSession.new, linkShell longTarget, [], []⟩).shell).2.length = 1 := by decide +kernel
  have hreference := handlePackets_burst hf 4 (sparseUpload.map Request.pkt)
  rw [referenceEnd]
  show (intoPendingUploads ⟨0, id⟩ (handlePackets ⟨0, id⟩ 1024 burst
    ⟨SftpSession.new, linkShell longTarget, [], []⟩).session (handlePackets ⟨0, id⟩ 1024 burst
    ⟨SftpSession.new, linkShell longTarget, [], []⟩).shell).2.length = 1
  rw [burst, hreference]
  exact hupload

/-- The loop stops at the limit, in front of the upload. -/
theorem feed_burst {shell : Shell} {f : Bytes} (hlen : f.length = 262169)
    (hf : ∀ x : Exchange, x.shell = shell →
      handlePacket ⟨0, id⟩ 1024 readlinkRequest x = { x with out := x.out ++ f }) :
    feed ⟨0, id⟩ 1024 (wire burst) SftpSession.new shell =
      ⟨{ SftpSession.new with buf := wire (sparseUpload.map Request.pkt) }, shell,
        [] ++ f ++ f ++ f ++ f, []⟩ := by
  have hnext : ∀ pkts : List Bytes, nextPacket (wire (readlinkRequest :: pkts)) =
      some (readlinkRequest, wire pkts) := by
    intro pkts
    have hcons := nextPacket_wire_cons (show readlinkRequest.length ≤ _ by decide) pkts []
    rwa [List.append_nil, List.append_nil] at hcons
  have hloop : feedLoop ⟨0, id⟩ 1024 (wire burst).length (wire burst)
      ⟨SftpSession.new, shell, [], []⟩ = (wire (sparseUpload.map Request.pkt),
        ⟨SftpSession.new, shell, [] ++ f ++ f ++ f ++ f, []⟩) := by
    rw [show (wire burst).length = 106 + 4 by decide, burst]
    -- three responses stay below the limit, the fourth reaches it
    rw [List.replicate_succ, List.cons_append, feedLoop_some (hnext _), hf _ rfl,
      if_neg (by simp [hlen, maxSftpFeedResponse])]
    rw [List.replicate_succ, List.cons_append, feedLoop_some (hnext _), hf _ rfl,
      if_neg (by simp [hlen, maxSftpFeedResponse])]
    rw [List.replicate_succ, List.cons_append, feedLoop_some (hnext _), hf _ rfl,
      if_neg (by simp [hlen, maxSftpFeedResponse])]
    rw [List.replicate_succ, List.cons_append, feedLoop_some (hnext _), hf _ rfl,
      if_pos (by simp [hlen, maxSftpFeedResponse])]
    rfl
  have hbuf : SftpSession.new.buf ++ wire burst = wire burst := List.nil_append _
  rw [feed, hbuf]
  dsimp only
  rw [hloop]

/-- **The frames a burst leaves queued are lost** at the end of the channel: the upload behind four
long responses is not even opened. -/
theorem queued_frames_lost :
    ¬ ∀ (config : Config) (ambient : Ambient) (channel : UInt32) (frames chunks : List Bytes)
      (tail : Bytes) (h : Handler) (call : Call), h.sftp = some SftpSession.new →
      (∀ pkt ∈ frames, pkt.length ≤ maxSftpPacketLen) → Incomplete tail →
      chunks.flatten = wire frames ++ tail → Ends channel h call →
      (run (step config) h (arrivals ambient channel chunks ++ [⟨ambient, call⟩])).stored =
        h.stored ++ ((h.reference config ambient frames).completed ++
          (h.referenceEnd config ambient frames).2) := by
  intro h
  have hstored := congrArg List.length (h testConfig ⟨0, id⟩ 0 burst [wire burst] [] linked
    (.channelClose 0) rfl (by decide) incomplete_nil (by decide) (.close rfl))
  rw [List.length_append, List.length_append, length_referenceEnd_burst] at hstored
  have hnone : (run (step testConfig) linked
      (arrivals ⟨0, id⟩ 0 [wire burst] ++ [⟨⟨0, id⟩, .channelClose 0⟩])).stored = [] := by
    obtain ⟨f, hlen, hf⟩ := exists_handlePacket_longTarget
    have hdata : linked.data testConfig ⟨0, id⟩ 0 (wire burst) ⟨none, false⟩ =
        { linked with
          sftp := some { SftpSession.new with buf := wire (sparseUpload.map Request.pkt) } } := by
      rw [data]
      dsimp only [linked, theShell, testConfig, Option.getD_some]
      rw [feed_burst hlen hf]
      rfl
    show ((linked.data testConfig ⟨0, id⟩ 0 (wire burst) ⟨none, false⟩).closeChannel ⟨0, id⟩
      0).stored = []
    rw [hdata]
    rfl
  rw [hnone] at hstored
  cases hstored

end Handler

end Ssh

end Mimic
