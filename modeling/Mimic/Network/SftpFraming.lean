import Mimic.Network.SftpOutcome

/-!
# Packets and frames

`feed` cuts the front of its buffer into packets, hands each to `handlePacket`, and leaves by one of
its exits (`feedLoop_spec`). The packets are a function of the buffer and the exchange,
`loopPackets`, and `wire` puts them back on the wire.

From what one request does it follows that every packet is answered as `Answers` says, and that over
any run the responses carry the ids of the requests, in their order (`responses_match_requests`).
-/

namespace Mimic

namespace Sftp

open Wire BigEndian

/-! ### Packets of a buffer -/

/-- Packets on the wire, each behind its length. -/
def wire (pkts : List Bytes) : Bytes := pkts.flatMap fun pkt ↦ encode 4 pkt.length ++ pkt

@[simp] theorem wire_nil : wire [] = [] := rfl

@[simp] theorem wire_cons (pkt : Bytes) (pkts : List Bytes) :
    wire (pkt :: pkts) = encode 4 pkt.length ++ pkt ++ wire pkts := rfl

/-- The first complete packet of a buffer and the bytes behind it. -/
def nextPacket (rest : Bytes) : Option (Bytes × Bytes) :=
  if rest.length < 4 ∨ maxSftpPacketLen < decode (rest.take 4) ∨
      rest.length < 4 + decode (rest.take 4) then none
  else some ((rest.drop 4).take (decode (rest.take 4)), rest.drop (4 + decode (rest.take 4)))

/-- What `feed` keeps of a buffer that holds no complete packet: everything, unless an oversized
length makes it drop the buffer. -/
def remainder (rest : Bytes) : Bytes :=
  if 4 ≤ rest.length ∧ maxSftpPacketLen < decode (rest.take 4) then [] else rest

variable {rest unread pkt : Bytes} {pkts : List Bytes}

theorem nextPacket_eq_some_iff : nextPacket rest = some (pkt, unread) ↔
    rest = encode 4 pkt.length ++ pkt ++ unread ∧ pkt.length ≤ maxSftpPacketLen := by
  constructor
  · intro h
    rw [nextPacket] at h
    split at h
    · exact absurd h (by simp)
    rename_i hcomplete
    obtain ⟨hfour, hmax, hwhole⟩ : 4 ≤ rest.length ∧ decode (rest.take 4) ≤ maxSftpPacketLen ∧
        4 + decode (rest.take 4) ≤ rest.length := by omega
    obtain ⟨rfl, rfl⟩ := Prod.mk.inj (Option.some.inj h)
    have hlen : ((rest.drop 4).take (decode (rest.take 4))).length = decode (rest.take 4) := by
      rw [List.length_take, List.length_drop]
      omega
    refine ⟨?_, hlen.trans_le hmax⟩
    have hfield : encode 4 (decode (rest.take 4)) = rest.take 4 := by
      have := encode_decode (rest.take 4)
      rwa [List.length_take_of_le hfour] at this
    rw [hlen, hfield, ← List.drop_drop, List.append_assoc, List.take_append_drop,
      List.take_append_drop]
  · rintro ⟨rfl, hmax⟩
    -- a length that is not refused fits in four bytes
    have hfield : decode ((encode 4 pkt.length ++ pkt ++ unread).take 4) = pkt.length := by
      rw [List.append_assoc, List.take_left' (length_encode 4 _), decode_encode_of_lt]
      exact hmax.trans_lt (by decide)
    rw [nextPacket, hfield, if_neg, List.append_assoc, List.drop_left' (length_encode 4 _),
      List.take_left, ← List.drop_drop, List.drop_left' (length_encode 4 _), List.drop_left]
    simp only [List.length_append, length_encode]
    omega

theorem nextPacket_eq_none_iff : nextPacket rest = none ↔ rest.length < 4 ∨
    maxSftpPacketLen < decode (rest.take 4) ∨ rest.length < 4 + decode (rest.take 4) := by
  rw [nextPacket]
  split <;> simp_all

/-- A buffer without a complete packet is shorter than the largest packet with its length. -/
theorem length_remainder_le (h : nextPacket rest = none) :
    (remainder rest).length ≤ maxSftpPacketLen + 3 := by
  rw [nextPacket_eq_none_iff] at h
  rw [remainder]
  split
  · exact Nat.zero_le _
  · omega

/-- A remainder holds no complete packet. -/
theorem nextPacket_remainder (h : nextPacket rest = none) : nextPacket (remainder rest) = none := by
  rw [remainder]
  split
  · rfl
  · exact h

theorem nextPacket_wire_cons (hmax : pkt.length ≤ maxSftpPacketLen) (pkts : List Bytes)
    (left : Bytes) : nextPacket (wire (pkt :: pkts) ++ left) = some (pkt, wire pkts ++ left) := by
  refine nextPacket_eq_some_iff.2 ⟨?_, hmax⟩
  rw [wire_cons, List.append_assoc]

/-! ### The loop of `feed` -/

section Loop

variable (ambient : Ambient) (maxUploadBytes : ℕ)

/-- The exchange after a list of packets. -/
def handlePackets (pkts : List Bytes) (x : Exchange) : Exchange :=
  pkts.foldl (fun x pkt ↦ handlePacket ambient maxUploadBytes pkt x) x

/-- The packets the loop of `feed` handles. -/
def loopPackets : ℕ → Bytes → Exchange → List Bytes
  | 0, _, _ => []
  | fuel + 1, rest, x =>
    match nextPacket rest with
    | none => []
    | some (pkt, unread) =>
      let handled := handlePacket ambient maxUploadBytes pkt x
      if handled.out.length ≥ maxSftpFeedResponse then [pkt]
      else pkt :: loopPackets fuel unread handled

variable {ambient maxUploadBytes} {fuel : ℕ} {x : Exchange}

theorem feedLoop_none (h : nextPacket rest = none) (hfuel : rest.length ≤ fuel) :
    feedLoop ambient maxUploadBytes fuel rest x = (remainder rest, x) := by
  rcases fuel with - | fuel
  · obtain rfl := List.length_eq_zero_iff.1 (Nat.le_zero.1 hfuel)
    rfl
  rw [nextPacket_eq_none_iff] at h
  rw [feedLoop, remainder]
  dsimp only
  by_cases hfour : rest.length < 4
  · rw [if_pos hfour, if_neg (by omega)]
  by_cases hmax : maxSftpPacketLen < decode (rest.take 4)
  · rw [if_neg hfour, if_pos hmax, if_pos (by omega)]
  · rw [if_neg hfour, if_neg hmax, if_pos (by omega), if_neg (by omega)]

theorem feedLoop_some (h : nextPacket rest = some (pkt, unread)) :
    feedLoop ambient maxUploadBytes (fuel + 1) rest x =
      if (handlePacket ambient maxUploadBytes pkt x).out.length ≥ maxSftpFeedResponse then
        (unread, handlePacket ambient maxUploadBytes pkt x)
      else feedLoop ambient maxUploadBytes fuel unread
        (handlePacket ambient maxUploadBytes pkt x) := by
  have hcomplete : ¬ nextPacket rest = none := by simp [h]
  rw [nextPacket_eq_none_iff] at hcomplete
  rw [nextPacket, if_neg hcomplete, Option.some_inj, Prod.mk_inj] at h
  obtain ⟨rfl, rfl⟩ := h
  rw [feedLoop, if_neg (by omega)]
  dsimp only
  rw [if_neg (by omega), if_neg (by omega)]

theorem loopPackets_none (h : nextPacket rest = none) :
    loopPackets ambient maxUploadBytes fuel rest x = [] := by
  rcases fuel with - | fuel
  · rfl
  · rw [loopPackets, h]

theorem loopPackets_some (h : nextPacket rest = some (pkt, unread)) :
    loopPackets ambient maxUploadBytes (fuel + 1) rest x =
      if (handlePacket ambient maxUploadBytes pkt x).out.length ≥ maxSftpFeedResponse then [pkt]
      else pkt :: loopPackets ambient maxUploadBytes fuel unread
        (handlePacket ambient maxUploadBytes pkt x) := by
  rw [loopPackets, h]

/-- How the loop of `feed` left a buffer: `left` follows the handled packets, `kept` is retained. -/
inductive LoopExit (out left kept : Bytes) : Prop
  /-- No complete packet is left. -/
  | drained (h : nextPacket left = none) (hkept : kept = remainder left)
  /-- The responses have reached their limit. -/
  | full (h : maxSftpFeedResponse ≤ out.length) (hkept : kept = left)

/-- **The loop of `feed`.** It handles the packets at the front of the buffer in turn, each at most
`MAX_SFTP_PACKET_LEN` long, and leaves by one of its exits. -/
theorem feedLoop_spec (ambient : Ambient) (maxUploadBytes : ℕ) (x : Exchange)
    (hfuel : rest.length ≤ fuel) :
    ∃ left, rest = wire (loopPackets ambient maxUploadBytes fuel rest x) ++ left ∧
      (∀ pkt ∈ loopPackets ambient maxUploadBytes fuel rest x, pkt.length ≤ maxSftpPacketLen) ∧
      (feedLoop ambient maxUploadBytes fuel rest x).2 =
        handlePackets ambient maxUploadBytes (loopPackets ambient maxUploadBytes fuel rest x) x ∧
      LoopExit (feedLoop ambient maxUploadBytes fuel rest x).2.out left
        (feedLoop ambient maxUploadBytes fuel rest x).1 := by
  induction fuel generalizing rest x with
  | zero =>
    obtain rfl := List.length_eq_zero_iff.1 (Nat.le_zero.1 hfuel)
    exact ⟨[], rfl, by simp [loopPackets], rfl, .drained rfl rfl⟩
  | succ fuel ih =>
    rcases hnext : nextPacket rest with - | ⟨pkt, unread⟩
    · rw [loopPackets_none hnext, feedLoop_none hnext hfuel]
      exact ⟨rest, rfl, by simp, rfl, .drained hnext rfl⟩
    rw [loopPackets_some hnext, feedLoop_some hnext]
    obtain ⟨hrest, hmax⟩ := nextPacket_eq_some_iff.1 hnext
    split
    · rename_i hfull
      -- the packet that reaches the limit is still handled
      refine ⟨unread, ?_, by simpa using hmax, rfl, .full hfull rfl⟩
      rw [wire_cons, wire_nil, List.append_nil, hrest]
    · have hunread : unread.length ≤ fuel := by
        rw [hrest, List.length_append, List.length_append, length_encode] at hfuel
        omega
      obtain ⟨left, hleft, hle, hexchange, hexit⟩ :=
        ih (handlePacket ambient maxUploadBytes pkt x) hunread
      refine ⟨left, ?_, ?_, hexchange, hexit⟩
      · rw [wire_cons, List.append_assoc, ← hleft, hrest]
      · exact List.forall_mem_cons.2 ⟨hmax, hle⟩

/-- The loop has enough fuel with the length of its buffer. -/
theorem feedLoop_fuel_irrelevant {fuel' : ℕ} (hfuel : rest.length ≤ fuel)
    (hfuel' : rest.length ≤ fuel') : feedLoop ambient maxUploadBytes fuel rest x =
      feedLoop ambient maxUploadBytes fuel' rest x := by
  induction fuel generalizing fuel' rest x with
  | zero =>
    obtain rfl := List.length_eq_zero_iff.1 (Nat.le_zero.1 hfuel)
    rw [feedLoop_none rfl hfuel, feedLoop_none rfl hfuel']
  | succ fuel ih =>
    rcases hnext : nextPacket rest with - | ⟨pkt, unread⟩
    · rw [feedLoop_none hnext hfuel, feedLoop_none hnext hfuel']
    obtain ⟨hrest, -⟩ := nextPacket_eq_some_iff.1 hnext
    have hlen : rest.length = 4 + pkt.length + unread.length := by
      rw [hrest, List.length_append, List.length_append, length_encode]
    rcases fuel' with - | fuel'
    · omega
    have hunread : unread.length ≤ fuel := by omega
    have hunread' : unread.length ≤ fuel' := by omega
    rw [feedLoop_some hnext, feedLoop_some hnext, ih hunread hunread']

end Loop

/-! ### Calls of `feed` -/

/-- A call of `feed` with everything it reads but the session. The shell is the one at the time of
the call: between two calls, other channels of the connection may have changed it. -/
structure FeedCall where
  ambient : Ambient
  maxUploadBytes : ℕ
  data : Bytes
  shell : Shell

/-- Retain unread bytes in the session. -/
def Exchange.retain (x : Exchange) (buf : Bytes) : Exchange :=
  { x with session := { x.session with buf := buf } }

namespace FeedCall

/-- The exchange the loop of `feed` starts from. -/
def start (c : FeedCall) (s : SftpSession) : Exchange := ⟨s, c.shell, [], []⟩

/-- The outcome of the call. -/
def exchange (c : FeedCall) (s : SftpSession) : Exchange :=
  feed c.ambient c.maxUploadBytes c.data s c.shell

/-- The session after the call. -/
def step (c : FeedCall) (s : SftpSession) : SftpSession := (c.exchange s).session

/-- The packets the call handles. -/
def packets (c : FeedCall) (s : SftpSession) : List Bytes :=
  loopPackets c.ambient c.maxUploadBytes (s.buf ++ c.data).length (s.buf ++ c.data) (c.start s)

/-- The exchange after packets of a call. -/
def handled (c : FeedCall) (s : SftpSession) (pkts : List Bytes) : Exchange :=
  handlePackets c.ambient c.maxUploadBytes pkts (c.start s)

variable (c : FeedCall) (s : SftpSession)

/-- **A call of `feed`** handles packets from the front of the buffer and retains what an exit of
its loop leaves. -/
theorem exchange_spec : ∃ left kept, s.buf ++ c.data = wire (c.packets s) ++ left ∧
    (∀ pkt ∈ c.packets s, pkt.length ≤ maxSftpPacketLen) ∧
    c.exchange s = (c.handled s (c.packets s)).retain kept ∧
    LoopExit (c.handled s (c.packets s)).out left kept := by
  obtain ⟨left, hbuf, hle, hexchange, hexit⟩ :=
    feedLoop_spec c.ambient c.maxUploadBytes (c.start s) (le_refl (s.buf ++ c.data).length)
  rw [hexchange] at hexit
  refine ⟨left, _, hbuf, hle, ?_, hexit⟩
  show Exchange.retain (feedLoop _ _ _ _ (c.start s)).2 _ = _
  rw [hexchange]
  rfl

end FeedCall

/-- What is sent back over a run of calls. -/
def responses : List FeedCall → SftpSession → Bytes
  | [], _ => []
  | c :: calls, s => (c.exchange s).out ++ responses calls (c.step s)

/-- The packets handled over a run of calls. -/
def requests : List FeedCall → SftpSession → List Bytes
  | [], _ => []
  | c :: calls, s => c.packets s ++ requests calls (c.step s)

/-! ### One response for each request -/

/-- A frame whose length field is the length of what follows it, as far as four bytes can say. -/
def Framed (f : Bytes) : Prop :=
  5 ≤ f.length ∧ decode (f.take 4) = (f.length - 4) % 2 ^ 32

/-- The id a packet asks to be answered under, if it holds one. -/
def requestId : Bytes → Option UInt32
  | [] => none
  | msgType :: cursor => if msgType = sshFxpInit then none else (getU32 cursor).map Prod.fst

/-- The id a response frame carries, if its type has one. -/
def responseId (f : Bytes) : Option UInt32 :=
  match f.drop 4 with
  | [] => none
  | pktType :: cursor => if pktType = sshFxpVersion then none else (getU32 cursor).map Prod.fst

theorem framed_frame (pktType : UInt8) (payload : Bytes) : Framed (frame pktType payload) := by
  refine ⟨by simp, ?_⟩
  rw [length_frame, frame, List.take_left' (length_encode 4 _), decode_encode,
    show payload.length + 5 - 4 = payload.length + 1 by omega]
  rfl

theorem drop_four_frame (pktType : UInt8) (payload : Bytes) :
    (frame pktType payload).drop 4 = pktType :: payload :=
  List.drop_left' (length_encode 4 _)

theorem getU32_encode (val : UInt32) (rest : Bytes) :
    getU32 (encode 4 val.toNat ++ rest) = some (val, rest) := by
  rw [getU32, if_neg (by simp), List.take_left' (length_encode 4 _),
    List.drop_left' (length_encode 4 _), decode_encode_of_lt val.toNat_lt, UInt32.ofNat_toNat]

theorem responseId_frame {pktType : UInt8} (htype : pktType ≠ sshFxpVersion) (id : UInt32)
    (body : Bytes) : responseId (frame pktType (encode 4 id.toNat ++ body)) = some id := by
  rw [responseId, drop_four_frame]
  show (if pktType = sshFxpVersion then none else _) = _
  rw [if_neg htype, getU32_encode]
  rfl

/-- The frame `INIT` is answered with. -/
def versionFrame : Bytes := frame sshFxpVersion (encode 4 3)

theorem responseId_versionFrame : responseId versionFrame = none := by decide

/-- What one packet must add to the exchange `x`: nothing where it is empty or too short to hold an
id, a `VERSION` frame for `INIT`, and one frame with its id else. -/
def Answers (pkt : Bytes) (x y : Exchange) : Prop :=
  match pkt with
  | [] => y = x
  | msgType :: cursor =>
    if msgType = sshFxpInit then y = { x with out := x.out ++ versionFrame }
    else
      match getU32 cursor with
      | none => y = x
      | some (id, _) => ∃ f, y.out = x.out ++ f ∧ Framed f ∧ responseId f = some id

section Discipline

variable (ambient : Ambient) (maxUploadBytes : ℕ) (x : Exchange)

theorem handlePacket_answers (pkt : Bytes) :
    Answers pkt x (handlePacket ambient maxUploadBytes pkt x) := by
  rcases pkt with - | ⟨msgType, cursor⟩
  · exact rfl
  rw [Answers, handlePacket]
  split
  · rw [sendPacket_eq (appends_putU32 3)]
    rfl
  rcases getU32 cursor with - | ⟨id, body⟩
  · rfl
  · obtain ⟨pktType, payload, htype, hout⟩ :=
      (handleRequest_serves ambient maxUploadBytes id body x msgType).replies
    exact ⟨_, hout, framed_frame _ _, responseId_frame htype _ _⟩

/-- The frames of one packet's response. -/
theorem handlePacket_frames (pkt : Bytes) :
    ∃ frames : List Bytes,
      (handlePacket ambient maxUploadBytes pkt x).out = x.out ++ frames.flatten ∧
      (∀ f ∈ frames, Framed f) ∧ frames.filterMap responseId = (requestId pkt).toList := by
  have hanswers := handlePacket_answers ambient maxUploadBytes x pkt
  rcases pkt with - | ⟨msgType, cursor⟩
  · exact ⟨[], by rw [hanswers]; exact (List.append_nil _).symm, by simp, rfl⟩
  rw [Answers] at hanswers
  rw [requestId]
  split at hanswers
  · rename_i hinit
    refine ⟨[versionFrame], by rw [hanswers, List.flatten_singleton],
      List.forall_mem_singleton.2 (framed_frame _ _), ?_⟩
    rw [if_pos hinit]
    exact List.filterMap_cons_none responseId_versionFrame
  rename_i hinit
  rw [if_neg hinit]
  rcases hid : getU32 cursor with - | ⟨id, body⟩
  · rw [hid] at hanswers
    exact ⟨[], by rw [hanswers]; exact (List.append_nil _).symm, by simp, rfl⟩
  · rw [hid] at hanswers
    obtain ⟨f, hout, hf, hresponse⟩ := hanswers
    exact ⟨[f], by rw [hout, List.flatten_singleton], List.forall_mem_singleton.2 hf,
      List.filterMap_cons_some hresponse⟩

/-- The frames of the responses to a list of packets. -/
theorem handlePackets_frames (pkts : List Bytes) :
    ∃ frames : List Bytes,
      (handlePackets ambient maxUploadBytes pkts x).out = x.out ++ frames.flatten ∧
      (∀ f ∈ frames, Framed f) ∧ frames.filterMap responseId = pkts.filterMap requestId := by
  induction pkts generalizing x with
  | nil => exact ⟨[], (List.append_nil _).symm, by simp, rfl⟩
  | cons pkt pkts ih =>
    obtain ⟨first, hfirst, hframed, hids⟩ := handlePacket_frames ambient maxUploadBytes x pkt
    obtain ⟨others, hothers, hframed', hids'⟩ := ih (handlePacket ambient maxUploadBytes pkt x)
    refine ⟨first ++ others, ?_, List.forall_mem_append.2 ⟨hframed, hframed'⟩, ?_⟩
    · show (handlePackets ambient maxUploadBytes pkts _).out = _
      rw [hothers, hfirst, List.flatten_append, List.append_assoc]
    · rw [List.filterMap_append, hids, hids', List.filterMap_cons]
      rcases requestId pkt with - | id <;> rfl

end Discipline

/-- The frames of the responses over a run of calls. -/
theorem responses_frames (calls : List FeedCall) (s : SftpSession) :
    ∃ frames : List Bytes, responses calls s = frames.flatten ∧ (∀ f ∈ frames, Framed f) ∧
      frames.filterMap responseId = (requests calls s).filterMap requestId := by
  induction calls generalizing s with
  | nil => exact ⟨[], rfl, by simp, rfl⟩
  | cons c calls ih =>
    obtain ⟨left, kept, -, -, hexchange, -⟩ := c.exchange_spec s
    obtain ⟨first, hfirst, hframed, hids⟩ :=
      handlePackets_frames c.ambient c.maxUploadBytes (c.start s) (c.packets s)
    obtain ⟨others, hothers, hframed', hids'⟩ := ih (c.step s)
    refine ⟨first ++ others, ?_, List.forall_mem_append.2 ⟨hframed, hframed'⟩, ?_⟩
    · have hout : (c.exchange s).out = first.flatten := by
        rw [hexchange]
        exact hfirst
      rw [responses, hout, hothers, List.flatten_append]
    · rw [List.filterMap_append, hids, hids', requests, List.filterMap_append]

/-- **Protocol discipline.** Every packet is answered as `Answers` says, in every state. Over any
list of packets, and over any run of `feed` calls, the output is a sequence of frames whose ids are
the ids of the requests, in their order. -/
theorem responses_match_requests :
    (∀ ambient maxUploadBytes pkt x,
      Answers pkt x (handlePacket ambient maxUploadBytes pkt x)) ∧
    (∀ ambient maxUploadBytes pkts x, ∃ frames : List Bytes,
      (handlePackets ambient maxUploadBytes pkts x).out = x.out ++ frames.flatten ∧
      (∀ f ∈ frames, Framed f) ∧ frames.filterMap responseId = pkts.filterMap requestId) ∧
    ∀ calls s, ∃ frames : List Bytes, responses calls s = frames.flatten ∧
      (∀ f ∈ frames, Framed f) ∧
      frames.filterMap responseId = (requests calls s).filterMap requestId :=
  ⟨fun ambient maxUploadBytes pkt x ↦ handlePacket_answers ambient maxUploadBytes x pkt,
    fun ambient maxUploadBytes pkts x ↦ handlePackets_frames ambient maxUploadBytes x pkts,
    responses_frames⟩

/-! ### A length that four bytes cannot hold

The length field is written with `as u32`, so a response past four gigabytes announces less than it
holds. No packet of `feed` is long enough for that; a directory entry of that length is. -/

/-- An exchange with one open directory, under the handle `[0]`, with one entry. -/
def listing (name : Str) : Exchange where
  session :=
    { SftpSession.new with
      handles := (∅ : Std.ExtTreeMap Bytes SftpHandle).insert [0]
        (.dir [⟨name, [], Metadata.new 0 sIfReg 0o644 0 0, 0⟩] 0) }
  shell := ⟨Vfs.new 0, 0, 0, 0⟩
  out := []
  completed := []

/-- `READDIR` on the handle `[0]`, as request 7. -/
def readListing : Bytes := sshFxpReaddir :: encode 4 7 ++ (encode 4 1 ++ [0])

theorem length_le_length_toUtf8 (text : Str) : text.length ≤ (Text.toUtf8 text).length := by
  induction text with
  | nil => exact le_rfl
  | cons c text ih =>
    have := c.utf8Size_pos
    rw [Text.toUtf8, List.flatMap_cons, List.length_append, String.length_utf8EncodeChar,
      List.length_cons]
    change text.length ≤ (text.flatMap String.utf8EncodeChar).length at ih
    omega

theorem readListing_out (ambient : Ambient) (maxUploadBytes : ℕ) (name : Str) :
    ∃ payload, name.length ≤ payload.length ∧
      (handlePacket ambient maxUploadBytes readListing (listing name)).out =
        frame sshFxpName payload := by
  have hdir : (listing name).session.handles[([0] : Bytes)]? =
      some (.dir [⟨name, [], Metadata.new 0 sIfReg 0o644 0 0, 0⟩] 0) :=
    Std.ExtTreeMap.getElem?_insert_self
  have hout : (handlePacket ambient maxUploadBytes readListing (listing name)).out =
      putNamePkt [] 7 [⟨name, [], some (Metadata.new 0 sIfReg 0o644 0 0, 0)⟩] := by
    have hcall : handlePacket ambient maxUploadBytes readListing (listing name) =
        handleReaddir 7 (encode 4 1 ++ [0]) (listing name) := rfl
    have hbytes : getBytes (encode 4 1 ++ [0]) = some ([0], []) := by decide
    rw [hcall, handleReaddir, hbytes]
    dsimp only
    rw [hdir]
    rfl
  obtain ⟨attrs, hattrs⟩ := appends_putAttrs (Metadata.new 0 sIfReg 0o644 0 0) 0
  have hpayload := (appends_putU32 7).comp ((appends_putU32 1).comp
    ((appends_putBytes (Text.toUtf8 name)).comp ((appends_putBytes (Text.toUtf8 [])).comp hattrs)))
  refine ⟨_, ?_, hout.trans (sendPacket_eq hpayload)⟩
  have := length_le_length_toUtf8 name
  simp only [List.length_append]
  omega

/-- The length field of a response need not be the length of what follows it. -/
theorem listing_prefix_wraps :
    requestId readListing = some 7 ∧
    ¬ ∃ f, (handlePacket ⟨0, id⟩ 0 readListing (listing (List.replicate (2 ^ 32) 'a'))).out =
        (listing (List.replicate (2 ^ 32) 'a')).out ++ f ∧ decode (f.take 4) = f.length - 4 := by
  refine ⟨by decide, ?_⟩
  rintro ⟨f, hout, hfield⟩
  obtain ⟨payload, hname, hframe⟩ := readListing_out ⟨0, id⟩ 0 (List.replicate (2 ^ 32) 'a')
  rw [List.length_replicate] at hname
  have hf : f = frame sshFxpName payload := hout.symm.trans hframe
  have hlt := decode_lt (f.take 4)
  have hfour : (f.take 4).length = 4 := by
    rw [List.length_take, hf, length_frame]
    omega
  rw [hfour, hfield, hf, length_frame] at hlt
  omega


end Sftp

end Mimic
