import Mimic.Network.SftpBuffer

/-!
# The byte stream of a session

`feed` is called with whatever the transport delivers, and its outcome accumulates: the responses go
out one after the other, and so do the completed uploads. `deliver` is one call with both
accumulated.

No handler looks at the responses or the uploads so far, nor at the unread bytes
(`handlePacket_rebase`). So a call continues where the calls before it stopped, and what a stream of
frames amounts to is what handling its packets one after the other amounts to, however it was cut
and wherever a call stopped (`deliverAll_drain`). Two cuts of one stream therefore agree
(`packetisation_irrelevant`).

This is about streams that consist of frames. A frame of a refused length makes `feed` drop the rest
of its buffer, and how much that is depends on the cut (`stray_bytes_desynchronise`).
-/

namespace Mimic

namespace Sftp

open Wire BigEndian GuardedRun

/-! ### What no handler looks at -/

/-- The exchange with other unread bytes, behind earlier responses and uploads. -/
def Exchange.rebase (x : Exchange) (buf out : Bytes) (completed : List CompletedUpload) :
    Exchange :=
  ⟨{ x.session with buf := buf }, x.shell, out ++ x.out, completed ++ x.completed⟩

section Responses

variable (id : UInt32) (out out' : Bytes)

theorem sendPacket_append {pktType : UInt8} {f : Bytes → Bytes} {payload : Bytes}
    (h : Appends f payload) :
    sendPacket (out ++ out') pktType f = out ++ sendPacket out' pktType f := by
  rw [sendPacket_eq h, sendPacket_eq h, List.append_assoc]

theorem putStatus_append (code : UInt32) (msg : Str) :
    putStatus (out ++ out') id code msg = out ++ putStatus out' id code msg :=
  sendPacket_append out out' ((appends_putU32 id).comp ((appends_putU32 code).comp
    ((appends_putBytes (Text.toUtf8 msg)).comp (appends_putBytes (Text.toUtf8 [])))))

theorem putHandle_append (handle : Bytes) :
    putHandle (out ++ out') id handle = out ++ putHandle out' id handle :=
  sendPacket_append out out' ((appends_putU32 id).comp (appends_putBytes handle))

theorem putData_append (data : Bytes) :
    putData (out ++ out') id data = out ++ putData out' id data :=
  sendPacket_append out out' ((appends_putU32 id).comp (appends_putBytes data))

theorem putAttrsPkt_append (metadata : Metadata) (size : ℕ) :
    putAttrsPkt (out ++ out') id metadata size = out ++ putAttrsPkt out' id metadata size := by
  obtain ⟨body, hbody⟩ := appends_putAttrs metadata size
  exact sendPacket_append out out' ((appends_putU32 id).comp hbody)

theorem putNamePkt_append (entries : List NameEntry) :
    putNamePkt (out ++ out') id entries = out ++ putNamePkt out' id entries := by
  obtain ⟨body, hbody⟩ := appends_foldl_putNameEntry entries
  exact sendPacket_append out out' ((appends_putU32 id).comp ((appends_putU32 _).comp hbody))

end Responses

section Rebase

variable {id : UInt32} {x y x' y' : Exchange} {buf out : Bytes} {completed : List CompletedUpload}

theorem rebase_shell : (x.rebase buf out completed).shell = x.shell := rfl

theorem rebase_handles :
    (x.rebase buf out completed).session.handles = x.session.handles := rfl

theorem rebase_absolute (path : Str) :
    (x.rebase buf out completed).absolute path = x.absolute path := rfl

theorem rebase_resolve (path : Str) :
    (x.rebase buf out completed).resolve path = x.resolve path := rfl

theorem status_rebase {code : UInt32} {msg : String} (h : y = x.rebase buf out completed) :
    y.status id code msg = (x.status id code msg).rebase buf out completed := by
  rw [h, Exchange.status, Exchange.rebase, putStatus_append]
  rfl

theorem openHandle_rebase {handle : SftpHandle} (h : y = x.rebase buf out completed) :
    y.openHandle id handle = (x.openHandle id handle).rebase buf out completed := by
  rw [h, Exchange.openHandle, Exchange.rebase, putHandle_append]
  rfl

theorem data_rebase {data : Bytes} (h : y = x.rebase buf out completed) :
    { y with out := putData y.out id data } =
      { x with out := putData x.out id data }.rebase buf out completed := by
  rw [h, Exchange.rebase, putData_append]
  rfl

theorem attrs_rebase {metadata : Metadata} {size : ℕ} (h : y = x.rebase buf out completed) :
    { y with out := putAttrsPkt y.out id metadata size } =
      { x with out := putAttrsPkt x.out id metadata size }.rebase buf out completed := by
  rw [h, Exchange.rebase, putAttrsPkt_append]
  rfl

theorem name_rebase {entries : List NameEntry} (h : y = x.rebase buf out completed) :
    { y with out := putNamePkt y.out id entries } =
      { x with out := putNamePkt x.out id entries }.rebase buf out completed := by
  rw [h, Exchange.rebase, putNamePkt_append]
  rfl

theorem ite_rebase {p : Prop} {i j : Decidable p} (h : y = x.rebase buf out completed)
    (h' : y' = x'.rebase buf out completed) :
    @ite _ p i y y' = (@ite _ p j x x').rebase buf out completed := by
  obtain rfl : i = j := Subsingleton.elim i j
  split
  · exact h
  · exact h'

end Rebase

section Handlers

variable (ambient : Ambient) (maxUploadBytes : ℕ) (id : UInt32) (cursor : Bytes) (x : Exchange)
  (buf out : Bytes) (completed : List CompletedUpload)

theorem handleRealpath_rebase : handleRealpath id cursor (x.rebase buf out completed) =
    (handleRealpath id cursor x).rebase buf out completed := by
  rw [handleRealpath, handleRealpath]
  split
  · exact status_rebase rfl
  · exact name_rebase rfl

theorem handleStat_rebase : handleStat ambient id cursor (x.rebase buf out completed) =
    (handleStat ambient id cursor x).rebase buf out completed := by
  rw [handleStat, handleStat]
  split
  · exact status_rebase rfl
  simp only [rebase_shell, rebase_resolve, rebase_absolute]
  split
  · exact attrs_rebase rfl
  · exact status_rebase rfl

theorem handleLstat_rebase : handleLstat ambient id cursor (x.rebase buf out completed) =
    (handleLstat ambient id cursor x).rebase buf out completed := by
  rw [handleLstat, handleLstat]
  split
  · exact status_rebase rfl
  dsimp only
  refine ite_rebase (attrs_rebase rfl) ?_
  simp only [rebase_shell, rebase_resolve, rebase_absolute]
  split
  · exact attrs_rebase rfl
  · exact status_rebase rfl

theorem handleOpendir_rebase : handleOpendir ambient id cursor (x.rebase buf out completed) =
    (handleOpendir ambient id cursor x).rebase buf out completed := by
  rw [handleOpendir, handleOpendir]
  split
  · exact status_rebase rfl
  simp only [rebase_shell, rebase_resolve, rebase_absolute]
  split
  · refine ite_rebase (ite_rebase (status_rebase rfl) (openHandle_rebase rfl)) (status_rebase rfl)
  · exact status_rebase rfl

theorem handleOpen_rebase :
    handleOpen ambient maxUploadBytes id cursor (x.rebase buf out completed) =
      (handleOpen ambient maxUploadBytes id cursor x).rebase buf out completed := by
  rw [handleOpen, handleOpen]
  split
  · exact status_rebase rfl
  split
  · exact status_rebase rfl
  dsimp only
  refine ite_rebase (status_rebase rfl) ?_
  refine ite_rebase (status_rebase rfl) ?_
  refine ite_rebase (openHandle_rebase rfl) ?_
  refine ite_rebase ?_ (status_rebase rfl)
  simp only [rebase_shell, rebase_resolve, rebase_absolute]
  split
  · split
    · exact ite_rebase (status_rebase rfl) (openHandle_rebase rfl)
    · exact status_rebase rfl
  · exact status_rebase rfl

theorem handleSetstat_rebase : handleSetstat id cursor (x.rebase buf out completed) =
    (handleSetstat id cursor x).rebase buf out completed := by
  rw [handleSetstat, handleSetstat]
  split
  · exact status_rebase rfl
  simp only [rebase_shell, rebase_resolve, rebase_absolute]
  split
  · split
    · exact status_rebase rfl
    · exact status_rebase rfl
  · exact status_rebase rfl

theorem handleRemove_rebase : handleRemove id cursor (x.rebase buf out completed) =
    (handleRemove id cursor x).rebase buf out completed := by
  rw [handleRemove, handleRemove]
  split
  · exact status_rebase rfl
  dsimp only
  refine ite_rebase (status_rebase rfl) ?_
  simp only [rebase_shell, rebase_resolve, rebase_absolute]
  split
  · exact ite_rebase (status_rebase rfl) (status_rebase rfl)
  · exact status_rebase rfl

theorem handleMkdir_rebase : handleMkdir ambient id cursor (x.rebase buf out completed) =
    (handleMkdir ambient id cursor x).rebase buf out completed := by
  rw [handleMkdir, handleMkdir]
  split
  · exact status_rebase rfl
  dsimp only
  refine ite_rebase (status_rebase rfl) ?_
  simp only [rebase_shell, rebase_resolve, rebase_absolute]
  split
  · exact status_rebase rfl
  · exact status_rebase rfl

theorem handleRmdir_rebase : handleRmdir id cursor (x.rebase buf out completed) =
    (handleRmdir id cursor x).rebase buf out completed := by
  rw [handleRmdir, handleRmdir]
  split
  · exact status_rebase rfl
  dsimp only
  refine ite_rebase (status_rebase rfl) ?_
  simp only [rebase_shell, rebase_resolve, rebase_absolute]
  split
  · split
    · split
      · exact ite_rebase (status_rebase rfl) (status_rebase rfl)
      · exact status_rebase rfl
    · exact status_rebase rfl
  · exact status_rebase rfl

theorem handleRename_rebase : handleRename id cursor (x.rebase buf out completed) =
    (handleRename id cursor x).rebase buf out completed := by
  rw [handleRename, handleRename]
  split
  · exact status_rebase rfl
  split
  · exact status_rebase rfl
  dsimp only
  refine ite_rebase (status_rebase rfl) ?_
  simp only [rebase_shell, rebase_resolve, rebase_absolute]
  split
  · exact ite_rebase (status_rebase rfl) (status_rebase rfl)
  · exact status_rebase rfl

theorem handleReadlink_rebase : handleReadlink id cursor (x.rebase buf out completed) =
    (handleReadlink id cursor x).rebase buf out completed := by
  rw [handleReadlink, handleReadlink]
  split
  · exact status_rebase rfl
  dsimp only
  refine ite_rebase (status_rebase rfl) ?_
  simp only [rebase_shell, rebase_resolve, rebase_absolute]
  split
  · split
    · exact name_rebase rfl
    · exact status_rebase rfl
  · exact status_rebase rfl

theorem handleSymlink_rebase : handleSymlink ambient id cursor (x.rebase buf out completed) =
    (handleSymlink ambient id cursor x).rebase buf out completed := by
  rw [handleSymlink, handleSymlink]
  split
  · exact status_rebase rfl
  split
  · exact status_rebase rfl
  dsimp only
  refine ite_rebase (status_rebase rfl) ?_
  simp only [rebase_shell, rebase_resolve, rebase_absolute]
  split
  · exact status_rebase rfl
  · exact status_rebase rfl

theorem handleReaddir_rebase : handleReaddir id cursor (x.rebase buf out completed) =
    (handleReaddir id cursor x).rebase buf out completed := by
  rw [handleReaddir, handleReaddir]
  split
  · exact status_rebase rfl
  simp only [rebase_handles]
  split
  · refine ite_rebase (status_rebase rfl) ?_
    rw [Exchange.rebase, Exchange.rebase, putNamePkt_append]
  · exact status_rebase rfl

theorem handleRead_rebase : handleRead id cursor (x.rebase buf out completed) =
    (handleRead id cursor x).rebase buf out completed := by
  rw [handleRead, handleRead]
  split
  · exact status_rebase rfl
  split
  · exact status_rebase rfl
  split
  · exact status_rebase rfl
  simp only [rebase_handles]
  split
  · exact ite_rebase (status_rebase rfl) (data_rebase rfl)
  · exact status_rebase rfl

theorem handleWrite_rebase :
    handleWrite maxUploadBytes id cursor (x.rebase buf out completed) =
      (handleWrite maxUploadBytes id cursor x).rebase buf out completed := by
  rw [handleWrite, handleWrite]
  split
  · exact status_rebase rfl
  split
  · exact status_rebase rfl
  split
  · exact status_rebase rfl
  simp only [rebase_handles]
  split
  · exact status_rebase rfl
  · exact status_rebase rfl

theorem handleClose_rebase : handleClose ambient id cursor (x.rebase buf out completed) =
    (handleClose ambient id cursor x).rebase buf out completed := by
  rw [handleClose, handleClose]
  split
  · exact status_rebase rfl
  simp only [rebase_handles]
  split
  · split
    · refine status_rebase ?_
      rw [Exchange.rebase, Exchange.rebase, List.append_assoc]
    · exact status_rebase rfl
  · exact status_rebase rfl

theorem handleFstat_rebase : handleFstat ambient id cursor (x.rebase buf out completed) =
    (handleFstat ambient id cursor x).rebase buf out completed := by
  rw [handleFstat, handleFstat]
  split
  · exact status_rebase rfl
  simp only [rebase_handles, rebase_shell]
  split
  · exact attrs_rebase rfl
  · exact attrs_rebase rfl
  · exact attrs_rebase rfl
  · exact status_rebase rfl

theorem handleFsetstat_rebase : handleFsetstat id cursor (x.rebase buf out completed) =
    (handleFsetstat id cursor x).rebase buf out completed := by
  rw [handleFsetstat, handleFsetstat]
  split
  · exact status_rebase rfl
  simp only [rebase_handles]
  split
  · exact status_rebase rfl
  · exact status_rebase rfl
  · exact status_rebase rfl

theorem handleRequest_rebase (msgType : UInt8) :
    handleRequest ambient maxUploadBytes id cursor (x.rebase buf out completed) msgType =
      (handleRequest ambient maxUploadBytes id cursor x msgType).rebase buf out completed := by
  rw [handleRequest, handleRequest]
  refine ite_rebase (handleRealpath_rebase ..) ?_
  refine ite_rebase (handleStat_rebase ..) ?_
  refine ite_rebase (handleLstat_rebase ..) ?_
  refine ite_rebase (handleOpendir_rebase ..) ?_
  refine ite_rebase (handleReaddir_rebase ..) ?_
  refine ite_rebase (handleOpen_rebase ..) ?_
  refine ite_rebase (handleRead_rebase ..) ?_
  refine ite_rebase (handleWrite_rebase ..) ?_
  refine ite_rebase (handleClose_rebase ..) ?_
  refine ite_rebase (handleFstat_rebase ..) ?_
  refine ite_rebase (handleSetstat_rebase ..) ?_
  refine ite_rebase (handleFsetstat_rebase ..) ?_
  refine ite_rebase (handleRemove_rebase ..) ?_
  refine ite_rebase (handleMkdir_rebase ..) ?_
  refine ite_rebase (handleRmdir_rebase ..) ?_
  refine ite_rebase (handleRename_rebase ..) ?_
  refine ite_rebase (handleReadlink_rebase ..) ?_
  exact ite_rebase (handleSymlink_rebase ..) (status_rebase rfl)

/-- **A packet is handled the same** whatever is unread and whatever was answered before. -/
theorem handlePacket_rebase (pkt : Bytes) :
    handlePacket ambient maxUploadBytes pkt (x.rebase buf out completed) =
      (handlePacket ambient maxUploadBytes pkt x).rebase buf out completed := by
  rcases pkt with - | ⟨msgType, cursor⟩
  · rfl
  rw [handlePacket, handlePacket]
  refine ite_rebase ?_ ?_
  · rw [Exchange.rebase, Exchange.rebase, sendPacket_append _ _ (appends_putU32 3)]
  · rcases getU32 cursor with - | ⟨id, body⟩
    · rfl
    · exact handleRequest_rebase ..

theorem handlePackets_rebase (pkts : List Bytes) :
    handlePackets ambient maxUploadBytes pkts (x.rebase buf out completed) =
      (handlePackets ambient maxUploadBytes pkts x).rebase buf out completed := by
  induction pkts generalizing x with
  | nil => rfl
  | cons pkt pkts ih =>
    show handlePackets ambient maxUploadBytes pkts (handlePacket ambient maxUploadBytes pkt _) = _
    rw [handlePacket_rebase, ih]
    rfl

end Handlers

/-! ### Streams of frames -/

/-- An incomplete frame of a length that is not refused. -/
def Incomplete (tail : Bytes) : Prop := nextPacket tail = none ∧ ¬ Oversized tail

theorem incomplete_nil : Incomplete [] := ⟨rfl, fun h ↦ absurd h.1 (by decide)⟩

variable {pkts rest frames : List Bytes} {tail left more data : Bytes} {x x₀ : Exchange}

/-- **The frames of a stream are unique.** -/
theorem frames_of_wire_append (hle : ∀ pkt ∈ pkts, pkt.length ≤ maxSftpPacketLen)
    (hrest : ∀ pkt ∈ rest, pkt.length ≤ maxSftpPacketLen) (htail : Incomplete tail)
    (h : wire pkts ++ left = wire rest ++ tail) :
    ∃ others, rest = pkts ++ others ∧ left = wire others ++ tail := by
  induction pkts generalizing rest with
  | nil => exact ⟨rest, rfl, h⟩
  | cons pkt pkts ih =>
    obtain ⟨hmax, hpkts⟩ := List.forall_mem_cons.1 hle
    have hnext := nextPacket_wire_cons hmax pkts left
    rw [h] at hnext
    rcases rest with - | ⟨pkt', rest⟩
    · rw [wire_nil, List.nil_append, htail.1] at hnext
      cases hnext
    obtain ⟨hmax', hrest⟩ := List.forall_mem_cons.1 hrest
    rw [nextPacket_wire_cons hmax', Option.some_inj, Prod.mk_inj] at hnext
    obtain ⟨rfl, hsame⟩ := hnext
    obtain ⟨others, rfl, hleft⟩ := ih hpkts hrest hsame.symm
    exact ⟨others, rfl, hleft⟩

/-- Nothing of a stream of frames is dropped. -/
theorem remainder_of_wire (hrest : ∀ pkt ∈ rest, pkt.length ≤ maxSftpPacketLen)
    (htail : Incomplete tail) (h : left ++ more = wire rest ++ tail) : remainder left = left := by
  rw [remainder, if_neg]
  rintro ⟨hfour, hmax⟩
  have htake : left.take 4 = (wire rest ++ tail).take 4 := by
    rw [← h, List.take_append_of_le_length hfour]
  rw [htake] at hmax
  rcases rest with - | ⟨pkt, rest⟩
  · refine htail.2 ⟨?_, hmax⟩
    rw [wire_nil, List.nil_append] at h
    rw [← h, List.length_append]
    omega
  · have hlen := hrest pkt List.mem_cons_self
    rw [wire_cons, List.append_assoc, List.append_assoc, List.take_left' (length_encode 4 _),
      decode_encode_of_lt (hlen.trans_lt (by decide))] at hmax
    omega

section Deliver

variable (ambient : Ambient) (maxUploadBytes : ℕ)

/-- A call of `feed` whose responses and uploads follow those of the calls before it. -/
def deliver (data : Bytes) (x : Exchange) : Exchange :=
  let fed := feed ambient maxUploadBytes data x.session x.shell
  { fed with out := x.out ++ fed.out, completed := x.completed ++ fed.completed }

/-- The calls of `feed` with these chunks. -/
def deliverAll (chunks : List Bytes) (x : Exchange) : Exchange :=
  chunks.foldl (fun x data ↦ deliver ambient maxUploadBytes data x) x

/-- The packets a call handles. -/
def delivered (data : Bytes) (x : Exchange) : List Bytes :=
  FeedCall.packets ⟨ambient, maxUploadBytes, data, x.shell⟩ x.session

theorem retain_eq_rebase (x : Exchange) (buf : Bytes) : x.retain buf = x.rebase buf [] [] := rfl

theorem handlePackets_retain (pkts : List Bytes) (x : Exchange) (buf : Bytes) :
    handlePackets ambient maxUploadBytes pkts (x.retain buf) =
      (handlePackets ambient maxUploadBytes pkts x).retain buf := by
  rw [retain_eq_rebase, handlePackets_rebase, retain_eq_rebase]

/-- **A call continues the exchange** by the packets it handles. -/
theorem deliver_spec (data : Bytes) (x : Exchange) : ∃ left kept,
    x.session.buf ++ data = wire (delivered ambient maxUploadBytes data x) ++ left ∧
    (∀ pkt ∈ delivered ambient maxUploadBytes data x, pkt.length ≤ maxSftpPacketLen) ∧
    deliver ambient maxUploadBytes data x =
      (handlePackets ambient maxUploadBytes (delivered ambient maxUploadBytes data x) x).retain
        kept ∧ (kept = left ∨ kept = remainder left) := by
  let c : FeedCall := ⟨ambient, maxUploadBytes, data, x.shell⟩
  obtain ⟨left, kept, hbuf, hle, hexchange, hexit⟩ := c.exchange_spec x.session
  refine ⟨left, kept, hbuf, hle, ?_, ?_⟩
  · -- the call starts with empty accumulators, and they are put in front again
    have hstart : x = (c.start x.session).rebase x.session.buf x.out x.completed := by
      show x = ⟨x.session, x.shell, x.out ++ [], x.completed ++ []⟩
      rw [List.append_nil, List.append_nil]
    conv_rhs => rw [hstart, handlePackets_rebase, ← hstart]
    show ({ c.exchange x.session with
      out := x.out ++ (c.exchange x.session).out
      completed := x.completed ++ (c.exchange x.session).completed } : Exchange) = _
    rw [hexchange]
    rfl
  · rcases hexit with ⟨-, hkept⟩ | ⟨-, hkept⟩
    · exact .inr hkept
    · exact .inl hkept

/-- A call with a complete packet in front handles one at least. -/
theorem delivered_ne_nil (h : nextPacket (x.session.buf ++ data) ≠ none) :
    delivered ambient maxUploadBytes data x ≠ [] := by
  obtain ⟨⟨pkt, unread⟩, hnext⟩ := Option.ne_none_iff_exists'.1 h
  have hlen : (x.session.buf ++ data).length ≠ 0 := by
    rw [(nextPacket_eq_some_iff.1 hnext).1, List.length_append, List.length_append, length_encode]
    omega
  obtain ⟨fuel, hfuel⟩ := Nat.exists_eq_succ_of_ne_zero hlen
  rw [delivered, FeedCall.packets]
  dsimp only
  rw [hfuel, loopPackets_some hnext]
  split <;> simp

variable {ambient maxUploadBytes}

/-- On the way through a stream: from `x₀`, the frames of `frames` in front of `rest` were handled,
and the bytes `more` are still to come. -/
structure Reached (ambient : Ambient) (maxUploadBytes : ℕ) (x₀ : Exchange)
    (frames rest : List Bytes) (tail more : Bytes) (x : Exchange) : Prop where
  handled : ∃ done, frames = done ++ rest ∧
    x = (handlePackets ambient maxUploadBytes done x₀).retain x.session.buf
  unread : x.session.buf ++ more = wire rest ++ tail

namespace Reached

variable (hframes : ∀ pkt ∈ frames, pkt.length ≤ maxSftpPacketLen) (htail : Incomplete tail)

theorem length_le (h : Reached ambient maxUploadBytes x₀ frames rest tail more x)
    (hframes : ∀ pkt ∈ frames, pkt.length ≤ maxSftpPacketLen) :
    ∀ pkt ∈ rest, pkt.length ≤ maxSftpPacketLen := by
  obtain ⟨done, rfl, -⟩ := h.handled
  exact fun pkt hpkt ↦ hframes pkt (List.mem_append_right _ hpkt)

include hframes htail

/-- **One call.** -/
theorem step (data : Bytes)
    (h : Reached ambient maxUploadBytes x₀ frames rest tail (data ++ more) x) :
    ∃ others, rest = delivered ambient maxUploadBytes data x ++ others ∧
      Reached ambient maxUploadBytes x₀ frames others tail more
        (deliver ambient maxUploadBytes data x) := by
  have hrest := h.length_le hframes
  obtain ⟨left, kept, hbuf, hle, hdeliver, hkept⟩ :=
    deliver_spec ambient maxUploadBytes data x
  have hstream := h.unread
  rw [← List.append_assoc, hbuf, List.append_assoc] at hstream
  obtain ⟨others, hothers, hleft⟩ := frames_of_wire_append hle hrest htail hstream
  have hle' : ∀ pkt ∈ others, pkt.length ≤ maxSftpPacketLen := fun pkt hpkt ↦
    hrest pkt (hothers ▸ List.mem_append_right _ hpkt)
  have hsame : kept = left := by
    rcases hkept with hkept | hkept
    · exact hkept
    · rw [hkept, remainder_of_wire hle' htail hleft]
  refine ⟨others, hothers, ?_, ?_⟩
  · obtain ⟨done, hdone, hx⟩ := h.handled
    refine ⟨done ++ delivered ambient maxUploadBytes data x, ?_, ?_⟩
    · rw [hdone, hothers, List.append_assoc]
    · have hx' : ∀ pkts, handlePackets ambient maxUploadBytes pkts x =
          (handlePackets ambient maxUploadBytes pkts
            (handlePackets ambient maxUploadBytes done x₀)).retain x.session.buf := by
        intro pkts
        conv_lhs => rw [hx]
        rw [handlePackets_retain]
      rw [hdeliver, hx', handlePackets, handlePackets, handlePackets, List.foldl_append]
      rfl
  · rw [hdeliver]
    show kept ++ more = _
    rw [hsame, hleft]

/-- All calls of a cut. -/
theorem steps (chunks : List Bytes)
    (h : Reached ambient maxUploadBytes x₀ frames rest tail (chunks.flatten ++ more) x) :
    ∃ others, Reached ambient maxUploadBytes x₀ frames others tail more
      (deliverAll ambient maxUploadBytes chunks x) := by
  induction chunks generalizing rest x with
  | nil => exact ⟨rest, h⟩
  | cons data chunks ih =>
    rw [List.flatten_cons, List.append_assoc] at h
    obtain ⟨others, -, hnext⟩ := h.step hframes htail
    exact ih hnext

/-- Calls without bytes work off what is queued. -/
theorem drain (n : ℕ) (h : Reached ambient maxUploadBytes x₀ frames rest tail [] x)
    (hn : rest.length ≤ n) :
    Reached ambient maxUploadBytes x₀ frames [] tail []
      (deliverAll ambient maxUploadBytes (List.replicate n []) x) := by
  induction n generalizing rest x with
  | zero =>
    obtain rfl := List.length_eq_zero_iff.1 (Nat.le_zero.1 hn)
    exact h
  | succ n ih =>
    obtain ⟨others, hothers, hnext⟩ := Reached.step hframes htail [] h
    refine ih hnext ?_
    rcases rest with - | ⟨pkt, rest⟩
    · rw [(List.append_eq_nil_iff.1 hothers.symm).2]
      exact Nat.zero_le _
    have hqueued : nextPacket (x.session.buf ++ []) ≠ none := by
      rw [h.unread, nextPacket_wire_cons (h.length_le hframes pkt List.mem_cons_self)]
      exact Option.some_ne_none _
    have hpos := List.length_pos_iff.2 (delivered_ne_nil ambient maxUploadBytes hqueued)
    have hlen := congrArg List.length hothers
    rw [List.length_append] at hlen
    omega

omit htail in
/-- Where nothing complete is left, everything was handled. -/
theorem eq_of_drained (h : Reached ambient maxUploadBytes x₀ frames rest tail [] x)
    (hnone : nextPacket x.session.buf = none) :
    x = (handlePackets ambient maxUploadBytes frames x₀).retain tail := by
  have hbuf := h.unread
  rw [List.append_nil] at hbuf
  obtain rfl : rest = [] := by
    rcases rest with - | ⟨pkt, rest⟩
    · rfl
    · rw [hbuf, nextPacket_wire_cons (h.length_le hframes pkt List.mem_cons_self)] at hnone
      cases hnone
  obtain ⟨done, hdone, hx⟩ := h.handled
  rw [List.append_nil] at hdone
  rw [hx, hbuf, hdone]
  rfl

end Reached

/-- **What a stream of frames amounts to**, however it is cut: after enough calls without bytes the
queue is empty, and once it is, every packet was handled in turn. -/
theorem deliverAll_drain {chunks : List Bytes}
    (hframes : ∀ pkt ∈ frames, pkt.length ≤ maxSftpPacketLen) (htail : Incomplete tail)
    (h : x.session.buf ++ chunks.flatten = wire frames ++ tail) (n : ℕ) :
    (frames.length ≤ n → nextPacket (deliverAll ambient maxUploadBytes
      (chunks ++ List.replicate n []) x).session.buf = none) ∧
    (nextPacket (deliverAll ambient maxUploadBytes
        (chunks ++ List.replicate n []) x).session.buf = none →
      deliverAll ambient maxUploadBytes (chunks ++ List.replicate n []) x =
        (handlePackets ambient maxUploadBytes frames x).retain tail) := by
  have hstart : Reached ambient maxUploadBytes x frames frames tail (chunks.flatten ++ []) x :=
    ⟨⟨[], rfl, rfl⟩, by rw [List.append_nil, h]⟩
  have hsplit : deliverAll ambient maxUploadBytes (chunks ++ List.replicate n []) x =
      deliverAll ambient maxUploadBytes (List.replicate n [])
        (deliverAll ambient maxUploadBytes chunks x) := List.foldl_append
  obtain ⟨queued, hqueued⟩ := hstart.steps hframes htail chunks
  rw [hsplit]
  constructor
  · intro hn
    have hle : queued.length ≤ n := by
      obtain ⟨done, hdone, -⟩ := hqueued.handled
      rw [hdone, List.length_append] at hn
      omega
    have hend := (hqueued.drain hframes htail n hle).unread
    rw [List.append_nil, wire_nil, List.nil_append] at hend
    rw [hend]
    exact htail.1
  · have hempty : [] = (List.replicate n ([] : Bytes)).flatten ++ [] := by simp
    rw [hempty] at hqueued
    obtain ⟨others, hend⟩ := hqueued.steps hframes htail (List.replicate n [])
    exact hend.eq_of_drained hframes

end Deliver

/-! ### Two cuts of one stream -/

/-- **The cut does not matter.** Take a session whose unread bytes, followed by what is still sent,
are a sequence of frames, and two cuts of what is sent, each followed by calls without bytes. As
many of these as there are frames empty the queue; and once it is empty after either cut, the
responses, the completed uploads, the filesystem and the session are the same. -/
theorem packetisation_irrelevant (ambient : Ambient) (maxUploadBytes : ℕ) {x : Exchange}
    {frames chunks chunks' : List Bytes}
    (hframes : ∀ pkt ∈ frames, pkt.length ≤ maxSftpPacketLen)
    (h : x.session.buf ++ chunks.flatten = wire frames)
    (h' : x.session.buf ++ chunks'.flatten = wire frames) :
    (∀ n, frames.length ≤ n → nextPacket (deliverAll ambient maxUploadBytes
      (chunks ++ List.replicate n []) x).session.buf = none) ∧
    ∀ n n', nextPacket (deliverAll ambient maxUploadBytes
        (chunks ++ List.replicate n []) x).session.buf = none →
      nextPacket (deliverAll ambient maxUploadBytes
        (chunks' ++ List.replicate n' []) x).session.buf = none →
      deliverAll ambient maxUploadBytes (chunks ++ List.replicate n []) x =
        deliverAll ambient maxUploadBytes (chunks' ++ List.replicate n' []) x := by
  rw [← List.append_nil (wire frames)] at h h'
  refine ⟨fun n ↦ (deliverAll_drain hframes incomplete_nil h n).1, fun n n' hn hn' ↦ ?_⟩
  rw [(deliverAll_drain hframes incomplete_nil h n).2 hn,
    (deliverAll_drain hframes incomplete_nil h' n').2 hn']

/-- A session on an empty filesystem, with unread bytes. -/
def unreadExchange (buf : Bytes) : Exchange :=
  ⟨{ SftpSession.new with buf := buf }, ⟨Vfs.new 0, 0, 0, 0⟩, [], []⟩

theorem packetisation_irrelevant_two_inits :
    deliverAll ⟨0, id⟩ 0 ([[0, 0, 0, 1, 1, 0, 0], [0, 1, 1]] ++ List.replicate 2 [])
        (unreadExchange []) =
      deliverAll ⟨0, id⟩ 0 ([[0, 0, 0, 1, 1, 0, 0, 0, 1, 1]] ++ List.replicate 3 [])
        (unreadExchange []) :=
  (packetisation_irrelevant ⟨0, id⟩ 0 (x := unreadExchange [])
    (show ∀ pkt ∈ [[1], [1]], _ by decide) (by decide) (by decide)).2 2 3
      (by decide +kernel) (by decide +kernel)

/-- With three unread bytes that start no frame, the cut decides whether the second frame is still
read. -/
theorem stray_bytes_desynchronise :
    ¬ ∀ (ambient : Ambient) (maxUploadBytes : ℕ) (x : Exchange)
      (frames chunks chunks' : List Bytes),
      (∀ pkt ∈ frames, pkt.length ≤ maxSftpPacketLen) → chunks.flatten = wire frames →
      chunks'.flatten = wire frames → ∀ n n',
        nextPacket (deliverAll ambient maxUploadBytes
          (chunks ++ List.replicate n []) x).session.buf = none →
        nextPacket (deliverAll ambient maxUploadBytes
          (chunks' ++ List.replicate n' []) x).session.buf = none →
        (deliverAll ambient maxUploadBytes (chunks ++ List.replicate n []) x).out =
          (deliverAll ambient maxUploadBytes (chunks' ++ List.replicate n' []) x).out := by
  intro h
  have hout := h ⟨0, id⟩ 0 (unreadExchange [255, 255, 255]) [[1], [1]]
    [[0, 0, 0, 1, 1, 0, 0, 0, 1, 1]] [[0, 0, 0, 1, 1], [0, 0, 0, 1, 1]] (by decide) (by decide)
    (by decide) 2 2 (by decide +kernel) (by decide +kernel)
  exact absurd hout (by decide +kernel)

end Sftp

end Mimic
