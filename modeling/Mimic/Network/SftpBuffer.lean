import Mimic.Foundation.GuardedRun
import Mimic.Network.SftpFraming

/-!
# The reassembly buffer

What a session retains in `buf` between two calls of `feed`.

A call that handles every complete packet of its buffer retains an incomplete one, which is shorter
than the largest packet with its length. The exit at `MAX_SFTP_FEED_RESPONSE` however leaves
complete packets behind, for the next call to handle, and nothing holds a client back that sends
more of them with every call than the responses leave room for. So there are two results.

* While no call is stopped with a complete packet behind it, the buffer stays below the largest
  packet and one chunk (`buf_bounded_of_drains`).
* With a link whose target is long, seventy-five bytes in each call are enough to make the buffer
  grow beyond every bound (`buf_unbounded`).
-/

namespace Mimic

namespace Sftp

open Wire BigEndian GuardedRun

/-! ### Calls that drain the buffer -/

/-- Whenever a complete packet follows `pkts` in the buffer of the call, the responses to `pkts`
stay below `MAX_SFTP_FEED_RESPONSE`. -/
def FeedCall.Drains (c : FeedCall) (s : SftpSession) : Prop :=
  ∀ pkts left, s.buf ++ c.data = wire pkts ++ left →
    (∀ pkt ∈ pkts, pkt.length ≤ maxSftpPacketLen) → nextPacket left ≠ none →
    (c.handled s pkts).out.length < maxSftpFeedResponse

/-- A loop that leaves no complete packet was below the limit in front of every one it found. -/
theorem length_out_lt_of_feedLoop {ambient : Ambient} {maxUploadBytes : ℕ} {left : Bytes}
    (pkts : List Bytes) :
    ∀ {fuel rest x}, rest.length ≤ fuel → rest = wire pkts ++ left →
      (∀ pkt ∈ pkts, pkt.length ≤ maxSftpPacketLen) → nextPacket left ≠ none →
      nextPacket (feedLoop ambient maxUploadBytes fuel rest x).1 = none →
      x.out.length < maxSftpFeedResponse →
      (handlePackets ambient maxUploadBytes pkts x).out.length < maxSftpFeedResponse := by
  induction pkts with
  | nil => exact fun _ _ _ _ _ hx ↦ hx
  | cons pkt pkts ih =>
    intro fuel rest x hfuel hrest hle hleft hnone hx
    obtain ⟨hmax, hle⟩ := List.forall_mem_cons.1 hle
    have hnext : nextPacket rest = some (pkt, wire pkts ++ left) := by
      rw [hrest]
      exact nextPacket_wire_cons hmax pkts left
    have hlen : rest.length = 4 + pkt.length + (wire pkts ++ left).length := by
      rw [hrest, wire_cons, List.append_assoc, List.length_append, List.length_append,
        length_encode]
    rcases fuel with - | fuel
    · omega
    rw [feedLoop_some hnext] at hnone
    split at hnone
    · -- stopped here, it leaves the packets that follow
      exfalso
      rcases pkts with - | ⟨pkt', pkts⟩
      · exact hleft hnone
      · rw [nextPacket_wire_cons (hle pkt' List.mem_cons_self)] at hnone
        cases hnone
    · rename_i hbelow
      exact ih (by omega) rfl hle hleft hnone (not_le.1 hbelow)

/-- **A call drains its buffer exactly when it retains no complete packet.** -/
theorem FeedCall.drains_iff {c : FeedCall} {s : SftpSession} :
    c.Drains s ↔ nextPacket (c.step s).buf = none := by
  constructor
  · intro h
    obtain ⟨left, kept, hbuf, hle, hexchange, hexit⟩ := c.exchange_spec s
    have hkept : (c.step s).buf = kept := by rw [FeedCall.step, hexchange]; rfl
    rw [hkept]
    rcases hexit with ⟨hnone, rfl⟩ | ⟨hfull, rfl⟩
    · exact nextPacket_remainder hnone
    · by_contra hnext
      exact absurd (h _ _ hbuf hle hnext) (not_lt.2 hfull)
  · intro hnone pkts left hbuf hle hleft
    have hstart : (c.start s).out.length < maxSftpFeedResponse := by
      show 0 < maxSftpFeedResponse
      decide
    exact length_out_lt_of_feedLoop pkts le_rfl hbuf hle hleft hnone hstart

/-- The buffer starts with a length that `feed` refuses. -/
def Oversized (buf : Bytes) : Prop := 4 ≤ buf.length ∧ maxSftpPacketLen < decode (buf.take 4)

/-- Between two calls with chunks of at most `chunk` bytes, the buffer is shorter than a packet, or
it is one chunk longer and the next call drops it. -/
def BufBounded (chunk : ℕ) (s : SftpSession) : Prop :=
  s.buf.length ≤ maxSftpPacketLen + 3 ∨
    Oversized s.buf ∧ s.buf.length ≤ maxSftpPacketLen + 3 + chunk

variable {c : FeedCall} {s : SftpSession} {chunk : ℕ} {buf rest : Bytes}

theorem Oversized.nextPacket_append (h : Oversized buf) : nextPacket (buf ++ rest) = none := by
  rw [nextPacket_eq_none_iff, List.take_append_of_le_length h.1]
  exact .inr (.inl h.2)

theorem length_le_of_not_oversized (h : nextPacket buf = none) (hsize : ¬ Oversized buf) :
    buf.length ≤ maxSftpPacketLen + 3 := by
  rw [nextPacket_eq_none_iff] at h
  rw [Oversized] at hsize
  omega

/-- A call on a buffer with a refused length drops it. -/
theorem packets_of_oversized (h : Oversized s.buf) : c.packets s = [] :=
  loopPackets_none h.nextPacket_append

/-- **One call.** -/
theorem BufBounded.step (h : BufBounded chunk s) (hchunk : c.data.length ≤ chunk)
    (hdrains : c.Drains s) : BufBounded chunk (c.step s) := by
  have hnext := FeedCall.drains_iff.1 hdrains
  obtain ⟨left, kept, hbuf, -, hexchange, hexit⟩ := c.exchange_spec s
  have hkept : (c.step s).buf = kept := by rw [FeedCall.step, hexchange]; rfl
  rw [BufBounded, hkept]
  rw [hkept] at hnext
  rcases hexit with ⟨hnone, rfl⟩ | ⟨hfull, rfl⟩
  · exact .inl (length_remainder_le hnone)
  by_cases hsize : Oversized kept
  · -- the buffer before the call was not dropped, so it was short
    have hlen : kept.length ≤ s.buf.length + c.data.length := by
      have := congrArg List.length hbuf
      rw [List.length_append, List.length_append] at this
      omega
    rcases h with h | ⟨h, -⟩
    · exact .inr ⟨hsize, by omega⟩
    · rw [packets_of_oversized h] at hfull
      change maxSftpFeedResponse ≤ 0 at hfull
      exact absurd hfull (by decide)
  · exact .inl (length_le_of_not_oversized hnext hsize)

/-- **The buffer is bounded while calls drain it**: in every run whose calls all do, with chunks of
at most `chunk` bytes, the session retains at most `MAX_SFTP_PACKET_LEN + 3 + chunk` bytes after
every call. -/
theorem buf_bounded_of_drains (chunk : ℕ) (calls : List FeedCall)
    (h : Admissible FeedCall.step (fun c s ↦ c.data.length ≤ chunk ∧ c.Drains s)
      SftpSession.new calls) (n : ℕ) :
    (run FeedCall.step SftpSession.new (calls.take n)).buf.length ≤
      maxSftpPacketLen + 3 + chunk := by
  have hstart : BufBounded chunk SftpSession.new := .inl (Nat.zero_le _)
  rw [← List.take_append_drop n calls, admissible_append] at h
  have hrun := invariant_run h.1 (fun c s hc hs ↦ BufBounded.step hs hc.1 hc.2) hstart
  rcases hrun with hlen | ⟨-, hlen⟩ <;> omega

/-- A buffer too short for two packets is drained by any call. -/
theorem drains_of_length_lt (h : (s.buf ++ c.data).length < 8) : c.Drains s := by
  intro pkts left hbuf hle hnext
  rcases pkts with - | ⟨pkt, pkts⟩
  · show 0 < maxSftpFeedResponse
    decide
  · rw [hbuf, wire_cons, List.length_append, List.length_append, List.length_append,
      length_encode] at h
    exact absurd (nextPacket_eq_none_iff.2 (.inl (by omega))) hnext

/-- `INIT` twice, the second one cut in two by the chunks. -/
def twoInits : List FeedCall :=
  [⟨⟨0, id⟩, 0, [0, 0, 0, 1, 1, 0, 0], ⟨Vfs.new 0, 0, 0, 0⟩⟩,
    ⟨⟨0, id⟩, 0, [0, 1, 1], ⟨Vfs.new 0, 0, 0, 0⟩⟩]

theorem buf_bounded_two_inits :
    (run FeedCall.step SftpSession.new twoInits).buf = [] ∧
    (run FeedCall.step SftpSession.new (twoInits.take 1)).buf.length ≤
      maxSftpPacketLen + 3 + 7 := by
  refine ⟨by decide +kernel, buf_bounded_of_drains 7 twoInits ?_ 1⟩
  exact ⟨⟨by decide, drains_of_length_lt (by decide)⟩,
    ⟨by decide, drains_of_length_lt (by decide +kernel)⟩, trivial⟩

/-! ### A backlog that grows -/

/-- `READLINK /l`, as request 0. -/
def readlinkRequest : Bytes := sshFxpReadlink :: encode 4 0 ++ (encode 4 2 ++ [47, 108])

/-- A shell with a link `/l`. -/
def linkShell (target : Str) : Shell :=
  ⟨((Vfs.new 0).addSymlink 0 0 ['l'] target).1, 0, 0, 0⟩

/-- A call that brings five requests. -/
def readlinkCall (target : Str) : FeedCall :=
  ⟨⟨0, id⟩, 0, wire (List.replicate 5 readlinkRequest), linkShell target⟩

theorem length_wire_replicate (n : ℕ) (pkt : Bytes) :
    (wire (List.replicate n pkt)).length = n * (4 + pkt.length) := by
  induction n with
  | zero => simp
  | succ n ih =>
    rw [List.replicate_succ, wire_cons, List.length_append, ih, List.length_append, length_encode]
    ring

theorem wire_append (pkts pkts' : List Bytes) : wire (pkts ++ pkts') = wire pkts ++ wire pkts' :=
  List.flatMap_append

theorem nextPacket_wire_replicate (n : ℕ) {pkt : Bytes} (h : pkt.length ≤ maxSftpPacketLen) :
    nextPacket (wire (List.replicate (n + 1) pkt)) =
      some (pkt, wire (List.replicate n pkt)) := by
  have hnext := nextPacket_wire_cons h (List.replicate n pkt) []
  rwa [List.append_nil, List.append_nil] at hnext

/-- The response repeats the target of the link twice. -/
theorem putNamePkt_target (target : Str) :
    ∃ f : Bytes, f.length = 25 + 2 * (Text.toUtf8 target).length ∧
      ∀ out, putNamePkt out 0 [⟨target, target, none⟩] = out ++ f := by
  have hpayload := (appends_putU32 0).comp ((appends_putU32 1).comp
    ((appends_putBytes (Text.toUtf8 target)).comp ((appends_putBytes (Text.toUtf8 target)).comp
      (appends_putU32 0))))
  refine ⟨_, ?_, fun out ↦ sendPacket_eq hpayload⟩
  simp only [length_frame, List.length_append, length_encode]
  ring

theorem handlePacket_readlink (ambient : Ambient) (maxUploadBytes : ℕ) (target : Str) (x : Exchange)
    (hx : x.shell = linkShell target) :
    handlePacket ambient maxUploadBytes readlinkRequest x =
      { x with out := putNamePkt x.out 0 [⟨target, target, none⟩] } := by
  rcases x with ⟨s, shell, out, completed⟩
  obtain rfl : shell = linkShell target := hx
  rfl

/-- Twice the target and the fields around it are a quarter of the limit, so a call handles four
requests and leaves the others. -/
theorem step_readlinkCall {target : Str} (htarget : (Text.toUtf8 target).length = 131072) (n : ℕ)
    (hs : s.buf = wire (List.replicate n readlinkRequest)) :
    ((readlinkCall target).step s).buf = wire (List.replicate (n + 1) readlinkRequest) := by
  obtain ⟨f, hlen, hf⟩ := putNamePkt_target target
  rw [htarget] at hlen
  have hcall : ∀ x : Exchange, x.shell = linkShell target →
      handlePacket ⟨0, id⟩ 0 readlinkRequest x = { x with out := x.out ++ f } := by
    intro x hx
    rw [handlePacket_readlink _ _ target x hx, hf]
  have hbuf : s.buf ++ (readlinkCall target).data =
      wire (List.replicate (n + 1 + 4) readlinkRequest) := by
    rw [hs, readlinkCall, ← wire_append, List.replicate_append_replicate]
  have hfuel : (s.buf ++ (readlinkCall target).data).length = 15 * n + 71 + 4 := by
    rw [hbuf, length_wire_replicate, show readlinkRequest.length = 11 from rfl]
    ring
  have hnext := fun m ↦ nextPacket_wire_replicate m (show readlinkRequest.length ≤ _ by decide)
  show (feedLoop ⟨0, id⟩ 0 (s.buf ++ (readlinkCall target).data).length
    (s.buf ++ (readlinkCall target).data) ⟨s, linkShell target, [], []⟩).1 = _
  rw [hfuel, hbuf]
  -- three responses stay below the limit, the fourth reaches it
  rw [feedLoop_some (hnext _), hcall _ rfl, if_neg (by simp [hlen, maxSftpFeedResponse])]
  rw [feedLoop_some (hnext _), hcall _ rfl, if_neg (by simp [hlen, maxSftpFeedResponse])]
  rw [feedLoop_some (hnext _), hcall _ rfl, if_neg (by simp [hlen, maxSftpFeedResponse])]
  rw [feedLoop_some (hnext _), hcall _ rfl, if_pos (by simp [hlen, maxSftpFeedResponse])]

theorem run_readlinkCall {target : Str} (htarget : (Text.toUtf8 target).length = 131072) (n : ℕ) :
    (run FeedCall.step SftpSession.new (List.replicate n (readlinkCall target))).buf =
      wire (List.replicate n readlinkRequest) := by
  induction n with
  | zero => rfl
  | succ n ih =>
    rw [List.replicate_succ', run_append]
    exact step_readlinkCall htarget n ih

theorem length_toUtf8_replicate (n : ℕ) :
    (Text.toUtf8 (List.replicate n 'a')).length = n := by
  induction n with
  | zero => rfl
  | succ n ih =>
    rw [List.replicate_succ]
    show (Text.toUtf8 (List.replicate n 'a')).length + 1 = _
    rw [ih]

/-- **The buffer grows beyond every bound**, with chunks of seventy-five bytes. -/
theorem buf_unbounded : ¬ ∃ B, ∀ calls : List FeedCall, (∀ c ∈ calls, c.data.length ≤ 75) →
    (run FeedCall.step SftpSession.new calls).buf.length ≤ B := by
  rintro ⟨B, h⟩
  have hle := h (List.replicate (B + 1) (readlinkCall (List.replicate 131072 'a'))) ?_
  · rw [run_readlinkCall (length_toUtf8_replicate 131072), length_wire_replicate,
      show readlinkRequest.length = 11 from rfl] at hle
    omega
  · intro c hc
    rw [List.eq_of_mem_replicate hc]
    show (wire (List.replicate 5 readlinkRequest)).length ≤ 75
    decide

end Sftp

end Mimic
