import Mimic.Foundation.Paging
import Mimic.Network.SftpWrites

/-!
# Files and directories read in pages

A handle that is open for reading has the bytes that the file had at the time, and one on a
directory its entries. A client that reads from offset 0, and on behind each reply, gets the bytes
(`read_file`), and one that goes on asking for entries gets `.`, `..` and each name once, in order
(`read_dir`), whatever lengths it asks for and whatever it, or the shell, does in between.
-/

namespace Mimic

namespace Sftp

open Wire BigEndian Paging MapSum

variable {maxUploadBytes : ℕ} {key : Bytes} {s : SftpSession} {r : Request} {id : UInt32}

/-- The response to a request. -/
def Request.reply (maxUploadBytes : ℕ) (r : Request) (s : SftpSession) : Bytes :=
  (handlePacket r.ambient maxUploadBytes r.pkt ⟨s, r.shell, [], []⟩).out

/-- The response that there is no more. -/
def eofReply (id : UInt32) : Bytes := putStatus [] id sshFxEof "End of file".toList

/-! ### Responses -/

theorem frame_inj {pktType pktType' : UInt8} {payload payload' : Bytes}
    (h : frame pktType payload = frame pktType' payload') :
    pktType = pktType' ∧ payload = payload' := by
  rw [frame, frame] at h
  exact List.cons.inj (List.append_inj h (by rw [length_encode, length_encode])).2

theorem putData_eq (id : UInt32) (data : Bytes) : putData [] id data = frame sshFxpData
    (encode 4 id.toNat ++ (encode 4 (UInt32.ofNat data.length).toNat ++ data)) :=
  sendPacket_eq ((appends_putU32 id).comp (appends_putBytes data))

theorem putHandle_eq (id : UInt32) (handle : Bytes) : putHandle [] id handle = frame sshFxpHandle
    (encode 4 id.toNat ++ (encode 4 (UInt32.ofNat handle.length).toNat ++ handle)) :=
  sendPacket_eq ((appends_putU32 id).comp (appends_putBytes handle))

theorem exists_putStatus_eq (id code : UInt32) (msg : Str) :
    ∃ payload, putStatus [] id code msg = frame sshFxpStatus payload :=
  ⟨_, sendPacket_eq ((appends_putU32 id).comp ((appends_putU32 code).comp
    ((appends_putBytes (Text.toUtf8 msg)).comp (appends_putBytes (Text.toUtf8 [])))))⟩

theorem exists_putNamePkt_eq (id : UInt32) (entries : List NameEntry) :
    ∃ payload, putNamePkt [] id entries = frame sshFxpName payload := by
  obtain ⟨body, hbody⟩ := appends_foldl_putNameEntry entries
  exact ⟨_, sendPacket_eq ((appends_putU32 id).comp ((appends_putU32 _).comp hbody))⟩

theorem putData_inj {data data' : Bytes} (h : putData [] id data = putData [] id data') :
    data = data' := by
  rw [putData_eq, putData_eq] at h
  have h := List.append_cancel_left (frame_inj h).2
  exact (List.append_inj h (by rw [length_encode, length_encode])).2

theorem putHandle_inj {id' : UInt32} {handle handle' : Bytes}
    (h : putHandle [] id handle = putHandle [] id' handle') : handle = handle' := by
  rw [putHandle_eq, putHandle_eq] at h
  have h := (List.append_inj (frame_inj h).2 (by rw [length_encode, length_encode])).2
  exact (List.append_inj h (by rw [length_encode, length_encode])).2

/-! ### Reading a file -/

/-- The id, the handle, the offset and the length of a `READ` packet. -/
def readRequest (pkt : Bytes) : Option (UInt32 × Bytes × ℕ × ℕ) :=
  match pkt with
  | [] => none
  | msgType :: cursor =>
    if msgType ≠ sshFxpRead then none
    else do
      let (id, cursor) ← getU32 cursor
      let (handle, cursor) ← getBytes cursor
      let (rawOffset, cursor) ← getU64 cursor
      let (len, _) ← getU32 cursor
      return (id, handle, rawOffset.toNat, len.toNat)

/-- What is read as a request of some type has that type in front, and then an id. -/
theorem exists_of_request {α : Type} {type : UInt8} {body : UInt32 × Bytes → Option α}
    {pkt : Bytes} {a : α}
    (h : (match pkt with
      | [] => none
      | msgType :: cursor => if msgType ≠ type then none else getU32 cursor >>= body) = some a) :
    ∃ cursor id rest, pkt = type :: cursor ∧ getU32 cursor = some (id, rest) ∧
      body (id, rest) = some a := by
  rcases pkt with - | ⟨msgType, cursor⟩
  · cases h
  dsimp only at h
  split at h
  · cases h
  · rename_i htype
    obtain ⟨⟨id, rest⟩, hid, hbody⟩ := Option.bind_eq_some_iff.mp h
    exact ⟨cursor, id, rest, by rw [not_not.mp htype], hid, hbody⟩

/-- **What a `READ` is answered with.** -/
theorem reply_read (maxUploadBytes : ℕ) {n len : ℕ} {data : Bytes} {metadata : Metadata}
    (hkey : s.handles[key]? = some (.readFile data metadata))
    (hpkt : readRequest r.pkt = some (id, key, n, len)) :
    r.apply maxUploadBytes s = s ∧ r.reply maxUploadBytes s =
      if data.length ≤ n then eofReply id
      else putData [] id ((data.drop n).take (min len maxReadChunk)) := by
  obtain ⟨ambient, shell, pkt⟩ := r
  rw [Request.apply, Request.reply]
  dsimp only at hpkt ⊢
  obtain ⟨cursor, id', body, rfl, hid, hpkt⟩ := exists_of_request hpkt
  obtain ⟨⟨handle, body'⟩, hhandle, hpkt⟩ := Option.bind_eq_some_iff.mp hpkt
  obtain ⟨⟨rawOffset, body''⟩, hoffset, hpkt⟩ := Option.bind_eq_some_iff.mp hpkt
  obtain ⟨⟨len', extra⟩, hlen, hpkt⟩ := Option.bind_eq_some_iff.mp hpkt
  cases hpkt
  have hcall : handlePacket ambient maxUploadBytes (sshFxpRead :: cursor) ⟨s, shell, [], []⟩ =
      handleRead id body ⟨s, shell, [], []⟩ := by
    rw [handlePacket, if_neg (by decide), hid]
    rfl
  rw [hcall, handleRead, hhandle]
  dsimp only
  rw [hoffset]
  dsimp only
  rw [hlen]
  dsimp only
  rw [hkey]
  have hmax : ¬ rawOffset.toNat > u64Max := not_lt.mpr (Nat.le_pred_of_lt rawOffset.toNat_lt)
  dsimp only
  by_cases hend : data.length ≤ rawOffset.toNat
  · rw [if_pos (Or.inr hend), if_pos hend]
    exact ⟨rfl, rfl⟩
  · rw [if_neg (not_or.mpr ⟨hmax, hend⟩), if_neg hend]
    refine ⟨rfl, ?_⟩
    dsimp only
    rw [← List.length_drop, ← List.take_take, List.take_length]

/-- From `s` to `t`, a client reads from the handle at offset `n`, and on behind each response: what
it gets, and whether it is told that there is no more. It and others may make any other requests,
with whatever filesystem, that leave the handle open and do not give its number to another. -/
inductive Reading (maxUploadBytes : ℕ) (key : Bytes) :
    SftpSession → ℕ → List Bytes → Bool → SftpSession → Prop
  | pause (s : SftpSession) (n : ℕ) : Reading maxUploadBytes key s n [] false s
  | eof {s : SftpSession} {n len : ℕ} {id : UInt32} (r : Request)
    (hpkt : readRequest r.pkt = some (id, key, n, len)) (hlen : 1 ≤ len)
    (hreply : r.reply maxUploadBytes s = eofReply id) : Reading maxUploadBytes key s n [] true s
  | data {s t : SftpSession} {n len : ℕ} {id : UInt32} {chunk : Bytes} {chunks : List Bytes}
    {ended : Bool} (r : Request) (hpkt : readRequest r.pkt = some (id, key, n, len))
    (hlen : 1 ≤ len) (hreply : r.reply maxUploadBytes s = putData [] id chunk)
    (h : Reading maxUploadBytes key (r.apply maxUploadBytes s) (n + chunk.length) chunks ended t) :
    Reading maxUploadBytes key s n (chunk :: chunks) ended t
  | other {s t : SftpSession} {n : ℕ} {chunks : List Bytes} {ended : Bool} (r : Request)
    (hopen : key ∈ (r.apply maxUploadBytes s).handles) (hfresh : s.handleBytes ≠ key)
    (h : Reading maxUploadBytes key (r.apply maxUploadBytes s) n chunks ended t) :
    Reading maxUploadBytes key s n chunks ended t

theorem eofReply_ne_putData (id id' : UInt32) (data : Bytes) :
    eofReply id ≠ putData [] id' data := by
  intro h
  obtain ⟨payload, hpayload⟩ := exists_putStatus_eq id sshFxEof "End of file".toList
  rw [eofReply, hpayload, putData_eq] at h
  exact absurd (frame_inj h).1 (by decide)

/-- **A file that is read stays as it is.** -/
theorem readFile_kept {data : Bytes} {metadata : Metadata}
    (hkey : s.handles[key]? = some (.readFile data metadata))
    (hopen : key ∈ (r.apply maxUploadBytes s).handles) (hfresh : s.handleBytes ≠ key) :
    (r.apply maxUploadBytes s).handles[key]? = some (.readFile data metadata) := by
  rw [Request.apply] at hopen ⊢
  rcases handlePacket_handles r.ambient maxUploadBytes ⟨s, r.shell, [], []⟩ r.pkt with
    ⟨hsession⟩ | ⟨handle, -, -, hsession⟩ | ⟨key', handle, handle', hkey', hsame, hsession⟩ |
    ⟨key', file, rawOffset, chunk, hkey', -, hsession⟩ | ⟨key', handle, -, hsession⟩ <;>
    rw [hsession] at hopen ⊢
  · exact hkey
  · exact (getElem?_insert_of_ne hfresh).trans hkey
  · have hne : key' ≠ key := by
      rintro rfl
      cases hkey.symm.trans hkey'
      cases hsame
    exact (getElem?_insert_of_ne hne).trans hkey
  · have hne : key' ≠ key := by
      rintro rfl
      cases hkey.symm.trans hkey'
    exact (getElem?_insert_of_ne hne).trans hkey
  · have hne : key' ≠ key := by
      rintro rfl
      simp at hopen
    exact (getElem?_erase_of_ne hne).trans hkey

/-- What is read from a handle are pages of its bytes, and it has them at the end. -/
theorem Reading.pages {t : SftpSession} {n : ℕ} {data : Bytes} {metadata : Metadata}
    {chunks : List Bytes} {ended : Bool} (h : Reading maxUploadBytes key s n chunks ended t)
    (hkey : s.handles[key]? = some (.readFile data metadata)) :
    Pages data n chunks ended ∧ t.handles[key]? = some (.readFile data metadata) := by
  induction h with
  | pause s n => exact ⟨.pause n, hkey⟩
  | eof r hpkt _ hreply =>
    rw [(reply_read _ hkey hpkt).2] at hreply
    split at hreply
    · exact ⟨.stop ‹_›, hkey⟩
    · exact absurd hreply.symm (eofReply_ne_putData _ _ _)
  | data r hpkt hlen hreply _ ih =>
    obtain ⟨hsession, hread⟩ := reply_read maxUploadBytes hkey hpkt
    rw [hread] at hreply
    split at hreply
    · exact absurd hreply (eofReply_ne_putData _ _ _)
    · rename_i hlt
      obtain rfl := putData_inj hreply
      rw [hsession] at ih
      obtain ⟨hpages, ht⟩ := ih hkey
      exact ⟨.page (lt_min hlen (by decide)) (not_le.mp hlt) hpages, ht⟩
  | other r hopen hfresh _ ih => exact ih (readFile_kept hkey hopen hfresh)

/-- Reading from the handle yields the bytes: nothing else on the way, all of them if it is told
that there is no more, and each `READ` is answered with some or with that. -/
def Yields (maxUploadBytes : ℕ) (key : Bytes) (s : SftpSession) (data : Bytes) : Prop :=
  ∀ chunks ended t, Reading maxUploadBytes key s 0 chunks ended t →
    chunks.flatten <+: data ∧ (ended = true → chunks.flatten = data) ∧
    chunks.length ≤ data.length ∧
    ∀ (r : Request) (id : UInt32) (n len : ℕ), readRequest r.pkt = some (id, key, n, len) →
      r.reply maxUploadBytes t = eofReply id ∨
        ∃ chunk, r.reply maxUploadBytes t = putData [] id chunk

/-- **What a handle has is what is read from it.** -/
theorem yields_of_getElem? {data : Bytes} {metadata : Metadata}
    (hkey : s.handles[key]? = some (.readFile data metadata)) :
    Yields maxUploadBytes key s data := by
  intro chunks ended t h
  obtain ⟨hpages, ht⟩ := h.pages hkey
  refine ⟨hpages.flatten_eq.1, hpages.flatten_eq.2, hpages.length_le, fun r id n len hpkt ↦ ?_⟩
  rw [(reply_read _ ht hpkt).2]
  split
  · exact Or.inl rfl
  · exact Or.inr ⟨_, rfl⟩

/-! ### Reading a directory -/

/-- The id and the handle of a `READDIR` packet. -/
def readdirRequest (pkt : Bytes) : Option (UInt32 × Bytes) :=
  match pkt with
  | [] => none
  | msgType :: cursor =>
    if msgType ≠ sshFxpReaddir then none
    else do
      let (id, cursor) ← getU32 cursor
      let (handle, _) ← getBytes cursor
      return (id, handle)

/-- The response that has these entries. -/
def nameReply (id : UInt32) (entries : List DirEntry) : Bytes :=
  putNamePkt [] id (entries.map fun e ↦ ⟨e.name, e.long, some (e.metadata, e.size)⟩)

/-- **What a `READDIR` is answered with**, and where the handle stands behind it. -/
theorem reply_readdir (maxUploadBytes : ℕ) {entries : List DirEntry} {offset : ℕ}
    (hkey : s.handles[key]? = some (.dir entries offset))
    (hpkt : readdirRequest r.pkt = some (id, key)) :
    if entries.length ≤ offset then
      r.apply maxUploadBytes s = s ∧ r.reply maxUploadBytes s = eofReply id
    else
      (r.apply maxUploadBytes s).handles[key]? = some (.dir entries
          (offset + ((entries.drop offset).take maxDirEntriesPerRead).length)) ∧
        r.reply maxUploadBytes s =
          nameReply id ((entries.drop offset).take maxDirEntriesPerRead) := by
  obtain ⟨ambient, shell, pkt⟩ := r
  rw [Request.apply, Request.reply]
  dsimp only at hpkt ⊢
  obtain ⟨cursor, id', body, rfl, hid, hpkt⟩ := exists_of_request hpkt
  obtain ⟨⟨handle, extra⟩, hhandle, hpkt⟩ := Option.bind_eq_some_iff.mp hpkt
  cases hpkt
  have hcall : handlePacket ambient maxUploadBytes (sshFxpReaddir :: cursor) ⟨s, shell, [], []⟩ =
      handleReaddir id body ⟨s, shell, [], []⟩ := by
    rw [handlePacket, if_neg (by decide), hid]
    rfl
  rw [hcall, handleReaddir, hhandle]
  dsimp only
  rw [hkey]
  dsimp only
  split
  · exact ⟨rfl, rfl⟩
  · have hlast : min (offset + maxDirEntriesPerRead) entries.length - offset =
        min maxDirEntriesPerRead (entries.drop offset).length := by
      rw [List.length_drop]
      omega
    have hslice : (entries.drop offset).take
        (min (offset + maxDirEntriesPerRead) entries.length - offset) =
        (entries.drop offset).take maxDirEntriesPerRead := by
      rw [hlast, ← List.take_take, List.take_length]
    rw [hslice]
    refine ⟨?_, rfl⟩
    refine Std.ExtTreeMap.getElem?_insert_self.trans ?_
    rw [List.length_take, List.length_drop]
    congr 2
    omega

theorem ne_of_getElem? {m : Std.ExtTreeMap Bytes SftpHandle} {key' : Bytes}
    {handle handle' : SftpHandle} (h : m[key]? = some handle) (h' : m[key']? = some handle')
    (hne : handle' ≠ handle) : key' ≠ key := by
  rintro rfl
  exact hne (Option.some.inj (h'.symm.trans h))

/-- A request leaves a directory as it is, unless it reads it, closes it or reuses its number. -/
theorem handleRequest_dir {ambient : Ambient} {cursor : Bytes} {x : Exchange} {msgType : UInt8}
    {entries : List DirEntry} {offset : ℕ}
    (hkey : x.session.handles[key]? = some (.dir entries offset))
    (hread : msgType ≠ sshFxpReaddir ∨ ∀ rest, getBytes cursor ≠ some (key, rest))
    (hopen : key ∈ (handleRequest ambient maxUploadBytes id cursor x msgType).session.handles)
    (hfresh : x.session.handleBytes ≠ key) :
    (handleRequest ambient maxUploadBytes id cursor x msgType).session.handles[key]? =
      some (.dir entries offset) := by
  by_cases hopendir : msgType = sshFxpOpendir
  · subst hopendir
    show (handleOpendir ambient id cursor x).session.handles[key]? = _
    rw [handleOpendir]
    repeat' split
    all_goals first
      | exact hkey
      | exact (getElem?_insert_of_ne hfresh).trans hkey
  by_cases hopenfile : msgType = sshFxpOpen
  · subst hopenfile
    show (handleOpen ambient maxUploadBytes id cursor x).session.handles[key]? = _
    rw [handleOpen]
    dsimp only
    repeat' split
    all_goals first
      | exact hkey
      | exact (getElem?_insert_of_ne hfresh).trans hkey
  by_cases hreaddir : msgType = sshFxpReaddir
  · subst hreaddir
    show (handleReaddir id cursor x).session.handles[key]? = _
    rw [handleReaddir]
    split
    · exact hkey
    · rename_i handle rest hbytes
      have hne : handle ≠ key := fun heq ↦
        hread.resolve_left (fun h ↦ h rfl) rest (heq ▸ hbytes)
      repeat' split
      all_goals first
        | exact hkey
        | exact (getElem?_insert_of_ne hne).trans hkey
  by_cases hwrite : msgType = sshFxpWrite
  · subst hwrite
    show (handleWrite maxUploadBytes id cursor x).session.handles[key]? = _
    rw [handleWrite]
    split
    · exact hkey
    split
    · exact hkey
    split
    · exact hkey
    dsimp only
    split
    · rename_i hfile
      exact (getElem?_insert_of_ne (ne_of_getElem? hkey hfile (by rintro ⟨⟩))).trans hkey
    · exact hkey
  by_cases hclose : msgType = sshFxpClose
  · subst hclose
    show (handleClose ambient id cursor x).session.handles[key]? = _
    replace hopen : key ∈ (handleClose ambient id cursor x).session.handles := hopen
    rcases hbytes : getBytes cursor with - | ⟨handle, rest⟩
    · rw [handleClose, hbytes]
      exact hkey
    rcases hhandle : x.session.handles[handle]? with - | closed
    · rw [handleClose, hbytes]
      dsimp only
      rw [hhandle]
      exact hkey
    have hsession : (handleClose ambient id cursor x).session = { x.session with
        handles := x.session.handles.erase handle
        bufferedBytes := x.session.bufferedBytes - closed.held } := by
      rw [handleClose, hbytes]
      dsimp only
      rw [hhandle]
      rcases closed with - | - | - <;> rfl
    rw [hsession] at hopen ⊢
    have hne : handle ≠ key := by
      rintro rfl
      simp at hopen
    exact (getElem?_erase_of_ne hne).trans hkey
  by_cases hfsetstat : msgType = sshFxpFsetstat
  · subst hfsetstat
    show (handleFsetstat id cursor x).session.handles[key]? = _
    rw [handleFsetstat]
    split
    · exact hkey
    dsimp only
    split
    · rename_i hfile
      exact (getElem?_insert_of_ne (ne_of_getElem? hkey hfile (by rintro ⟨⟩))).trans hkey
    · exact hkey
    · exact hkey
  · rw [(handlePath_session ambient maxUploadBytes id cursor x msgType hopendir hopenfile hreaddir
      hwrite hclose hfsetstat).1]
    exact hkey

theorem dir_kept {entries : List DirEntry} {offset : ℕ}
    (hkey : s.handles[key]? = some (.dir entries offset))
    (hpkt : ∀ id, readdirRequest r.pkt ≠ some (id, key))
    (hopen : key ∈ (r.apply maxUploadBytes s).handles) (hfresh : s.handleBytes ≠ key) :
    (r.apply maxUploadBytes s).handles[key]? = some (.dir entries offset) := by
  obtain ⟨ambient, shell, pkt⟩ := r
  rw [Request.apply] at hopen ⊢
  dsimp only at hpkt hopen ⊢
  rcases pkt with - | ⟨msgType, cursor⟩
  · exact hkey
  rw [handlePacket] at hopen ⊢
  split at hopen
  · rw [if_pos ‹_›]
    exact hkey
  rw [if_neg ‹_›]
  rcases hid : getU32 cursor with - | ⟨id, body⟩
  · exact hkey
  · rw [hid] at hopen
    refine handleRequest_dir hkey ?_ hopen hfresh
    by_cases hreaddir : msgType = sshFxpReaddir
    · refine Or.inr fun rest hbytes ↦ hpkt id ?_
      rw [readdirRequest, if_neg (not_not.mpr hreaddir), hid]
      dsimp only [Option.bind_eq_bind, Option.bind_some]
      rw [hbytes]
      rfl
    · exact Or.inl hreaddir

/-- From `s` to `t`, a client asks for entries: the responses with entries, each with its id, and
whether it is told that there are no more. There may be other requests in between as for files. -/
inductive Listing (maxUploadBytes : ℕ) (key : Bytes) :
    SftpSession → List (UInt32 × Bytes) → Bool → SftpSession → Prop
  | pause (s : SftpSession) : Listing maxUploadBytes key s [] false s
  | eof {s : SftpSession} {id : UInt32} (r : Request)
    (hpkt : readdirRequest r.pkt = some (id, key))
    (hreply : r.reply maxUploadBytes s = eofReply id) : Listing maxUploadBytes key s [] true s
  | page {s t : SftpSession} {id : UInt32} {replies : List (UInt32 × Bytes)} {ended : Bool}
    (r : Request) (hpkt : readdirRequest r.pkt = some (id, key))
    (hreply : r.reply maxUploadBytes s ≠ eofReply id)
    (h : Listing maxUploadBytes key (r.apply maxUploadBytes s) replies ended t) :
    Listing maxUploadBytes key s ((id, r.reply maxUploadBytes s) :: replies) ended t
  | other {s t : SftpSession} {replies : List (UInt32 × Bytes)} {ended : Bool} (r : Request)
    (hpkt : ∀ id, readdirRequest r.pkt ≠ some (id, key))
    (hopen : key ∈ (r.apply maxUploadBytes s).handles) (hfresh : s.handleBytes ≠ key)
    (h : Listing maxUploadBytes key (r.apply maxUploadBytes s) replies ended t) :
    Listing maxUploadBytes key s replies ended t

theorem eofReply_ne_nameReply (id id' : UInt32) (entries : List DirEntry) :
    eofReply id ≠ nameReply id' entries := by
  intro h
  obtain ⟨payload, hpayload⟩ := exists_putStatus_eq id sshFxEof "End of file".toList
  obtain ⟨payload', hpayload'⟩ := exists_putNamePkt_eq id'
    (entries.map fun e ↦ ⟨e.name, e.long, some (e.metadata, e.size)⟩)
  rw [eofReply, hpayload, nameReply, hpayload'] at h
  exact absurd (frame_inj h).1 (by decide)

/-- The responses have these pages, one each. -/
def HavePages (replies : List (UInt32 × Bytes)) (pages : List (List DirEntry)) : Prop :=
  List.Forall₂ (fun reply page ↦ reply.2 = nameReply reply.1 page) replies pages

/-- What is listed are pages of the entries. -/
theorem Listing.pages {t : SftpSession} {n : ℕ} {entries : List DirEntry}
    {replies : List (UInt32 × Bytes)} {ended : Bool}
    (h : Listing maxUploadBytes key s replies ended t)
    (hkey : s.handles[key]? = some (.dir entries n)) :
    (∃ pages, HavePages replies pages ∧ Pages entries n pages ended) ∧
      ∃ n', t.handles[key]? = some (.dir entries n') := by
  induction h generalizing n with
  | pause s => exact ⟨⟨[], .nil, .pause n⟩, n, hkey⟩
  | eof r hpkt hreply =>
    have hread := reply_readdir maxUploadBytes hkey hpkt
    split at hread
    · exact ⟨⟨[], .nil, .stop ‹_›⟩, n, hkey⟩
    · rw [hread.2] at hreply
      exact absurd hreply.symm (eofReply_ne_nameReply _ _ _)
  | page r hpkt hreply _ ih =>
    have hread := reply_readdir maxUploadBytes hkey hpkt
    split at hread
    · exact absurd hread.2 hreply
    · obtain ⟨⟨pages, hhave, hpages⟩, ht⟩ := ih hread.1
      exact ⟨⟨_, .cons hread.2 hhave, .page (by decide) (not_le.mp ‹_›) hpages⟩, ht⟩
  | other r hpkt hopen hfresh _ ih => exact ih (dir_kept hkey hpkt hopen hfresh)

/-- Listing from the handle yields the entries: nothing else on the way, all of them if it is told
that there are no more, and each `READDIR` is answered with some or with that. -/
def Lists (maxUploadBytes : ℕ) (key : Bytes) (s : SftpSession) (entries : List DirEntry) : Prop :=
  ∀ replies ended t, Listing maxUploadBytes key s replies ended t →
    (∃ pages, HavePages replies pages ∧ pages.flatten <+: entries ∧
      (ended = true → pages.flatten = entries)) ∧
    replies.length ≤ entries.length ∧
    ∀ (r : Request) (id : UInt32), readdirRequest r.pkt = some (id, key) →
      r.reply maxUploadBytes t = eofReply id ∨
        ∃ page, r.reply maxUploadBytes t = nameReply id page

theorem lists_of_getElem? {entries : List DirEntry}
    (hkey : s.handles[key]? = some (.dir entries 0)) : Lists maxUploadBytes key s entries := by
  intro replies ended t h
  obtain ⟨⟨pages, hhave, hpages⟩, n, ht⟩ := h.pages hkey
  refine ⟨⟨pages, hhave, hpages.flatten_eq⟩, hhave.length_eq.trans_le hpages.length_le,
    fun r id hpkt ↦ ?_⟩
  have hread := reply_readdir maxUploadBytes ht hpkt
  split at hread
  · exact Or.inl hread.2
  · exact Or.inr ⟨_, hread.2⟩

/-! ### Opening -/

/-- The id, the path and the flags of an `OPEN` packet. -/
def openRequest (pkt : Bytes) : Option (UInt32 × Str × UInt32) :=
  match pkt with
  | [] => none
  | msgType :: cursor =>
    if msgType ≠ sshFxpOpen then none
    else do
      let (id, cursor) ← getU32 cursor
      let (path, cursor) ← getStr cursor
      let (pflags, _) ← getU32 cursor
      return (id, path, pflags)

/-- The id and the path of an `OPENDIR` packet. -/
def opendirRequest (pkt : Bytes) : Option (UInt32 × Str) :=
  match pkt with
  | [] => none
  | msgType :: cursor =>
    if msgType ≠ sshFxpOpendir then none
    else do
      let (id, cursor) ← getU32 cursor
      let (path, _) ← getStr cursor
      return (id, path)

/-- The node that a path leads to. -/
def Request.target (r : Request) (path : Str) : Option NodeId :=
  r.shell.vfs.resolve r.shell.cwd (normalizePath (r.shell.vfs.pathOf r.shell.cwd) path)

theorem putStatus_ne_putHandle (id id' code : UInt32) (msg : Str) (handle : Bytes) :
    putStatus [] id code msg ≠ putHandle [] id' handle := by
  intro h
  obtain ⟨payload, hpayload⟩ := exists_putStatus_eq id code msg
  rw [hpayload, putHandle_eq] at h
  exact absurd (frame_inj h).1 (by decide)

/-- **A file that is opened**: the handle has the bytes it has at the time. -/
theorem getElem?_of_open {path : Str} {pflags : UInt32}
    (hpkt : openRequest r.pkt = some (id, path, pflags)) (hflags : pflags &&& sshFxfWrite = 0)
    (hreply : r.reply maxUploadBytes s = putHandle [] id key) :
    ∃ node data metadata, r.target path = some node ∧
      (r.shell.vfs.node node).fileBytes r.ambient.now = some data ∧
      (r.apply maxUploadBytes s).handles[key]? = some (.readFile data metadata) := by
  obtain ⟨ambient, shell, pkt⟩ := r
  rw [Request.apply]
  rw [Request.reply] at hreply
  dsimp only at hpkt hreply ⊢
  obtain ⟨cursor, id', body, rfl, hid, hpkt⟩ := exists_of_request hpkt
  obtain ⟨⟨path', body'⟩, hpath, hpkt⟩ := Option.bind_eq_some_iff.mp hpkt
  obtain ⟨⟨pflags', extra⟩, hpflags, hpkt⟩ := Option.bind_eq_some_iff.mp hpkt
  cases hpkt
  have hcall : handlePacket ambient maxUploadBytes (sshFxpOpen :: cursor) ⟨s, shell, [], []⟩ =
      handleOpen ambient maxUploadBytes id body ⟨s, shell, [], []⟩ := by
    rw [handlePacket, if_neg (by decide), hid]
    rfl
  rw [hcall, handleOpen, hpath] at hreply ⊢
  dsimp only at hreply ⊢
  rw [hpflags] at hreply ⊢
  dsimp only at hreply ⊢
  rw [if_neg (show ¬ (pflags &&& sshFxfWrite != 0) = true by simpa using hflags)] at hreply ⊢
  split at hreply
  · exact absurd hreply (putStatus_ne_putHandle _ _ _ _ _)
  rw [if_neg ‹_›]
  split at hreply
  · exact absurd hreply (putStatus_ne_putHandle _ _ _ _ _)
  rw [if_neg ‹_›]
  split at hreply
  · rw [if_pos ‹_›]
    split at hreply
    · rename_i node hnode
      split at hreply
      · rename_i data hdata
        split at hreply
        · exact absurd hreply (putStatus_ne_putHandle _ _ _ _ _)
        · have hhandle : s.handleBytes = key := putHandle_inj hreply
          refine ⟨node, data, (shell.vfs.node node).metadata, hnode, hdata, ?_⟩
          rw [if_neg ‹_›, ← hhandle]
          exact Std.ExtTreeMap.getElem?_insert_self
      · exact absurd hreply (putStatus_ne_putHandle _ _ _ _ _)
    · exact absurd hreply (putStatus_ne_putHandle _ _ _ _ _)
  · exact absurd hreply (putStatus_ne_putHandle _ _ _ _ _)

/-- **A directory that is opened**: the handle has the entries it has at the time. -/
theorem getElem?_of_opendir {path : Str} (hpkt : opendirRequest r.pkt = some (id, path))
    (hreply : r.reply maxUploadBytes s = putHandle [] id key) :
    ∃ dir, r.target path = some dir ∧ (r.apply maxUploadBytes s).handles[key]? =
      some (.dir (dirEntries r.ambient r.shell.vfs dir) 0) := by
  obtain ⟨ambient, shell, pkt⟩ := r
  rw [Request.apply]
  rw [Request.reply] at hreply
  dsimp only at hpkt hreply ⊢
  obtain ⟨cursor, id', body, rfl, hid, hpkt⟩ := exists_of_request hpkt
  obtain ⟨⟨path', extra⟩, hpath, hpkt⟩ := Option.bind_eq_some_iff.mp hpkt
  cases hpkt
  have hcall : handlePacket ambient maxUploadBytes (sshFxpOpendir :: cursor) ⟨s, shell, [], []⟩ =
      handleOpendir ambient id body ⟨s, shell, [], []⟩ := by
    rw [handlePacket, if_neg (by decide), hid]
    rfl
  rw [hcall, handleOpendir, hpath] at hreply ⊢
  dsimp only at hreply ⊢
  split at hreply
  · rename_i dir hdir
    split at hreply
    · split at hreply
      · exact absurd hreply (putStatus_ne_putHandle _ _ _ _ _)
      · have hhandle : s.handleBytes = key := putHandle_inj hreply
        refine ⟨dir, hdir, ?_⟩
        rw [if_pos ‹_›, if_neg ‹_›, ← hhandle]
        exact Std.ExtTreeMap.getElem?_insert_self
    · exact absurd hreply (putStatus_ne_putHandle _ _ _ _ _)
  · exact absurd hreply (putStatus_ne_putHandle _ _ _ _ _)

/-- **The names of a directory** are `.`, `..` and those of its entries, in order. -/
theorem map_name_dirEntries (ambient : Ambient) (vfs : Vfs) (dir : NodeId) :
    (dirEntries ambient vfs dir).map DirEntry.name =
      ['.'] :: ['.', '.'] :: ((vfs.entries dir).getD []).map Prod.fst := by
  rw [dirEntries, List.map_cons, List.map_cons, List.map_map]
  rfl

/-- **What is read in pages is what was there**: from a file that is opened for reading its bytes,
and from a directory `.`, `..` and the name of each of its entries, in order and so once each. -/
theorem opened_reads_back (maxUploadBytes : ℕ) (s : SftpSession) (r : Request) (id : UInt32)
    (key : Bytes) (path : Str) (hreply : r.reply maxUploadBytes s = putHandle [] id key) :
    (∀ pflags, openRequest r.pkt = some (id, path, pflags) → pflags &&& sshFxfWrite = 0 →
      ∃ node data, r.target path = some node ∧
        (r.shell.vfs.node node).fileBytes r.ambient.now = some data ∧
        Yields maxUploadBytes key (r.apply maxUploadBytes s) data) ∧
    (opendirRequest r.pkt = some (id, path) →
      ∃ dir names, r.target path = some dir ∧
        Lists maxUploadBytes key (r.apply maxUploadBytes s)
          (dirEntries r.ambient r.shell.vfs dir) ∧
        (dirEntries r.ambient r.shell.vfs dir).map DirEntry.name = ['.'] :: ['.', '.'] :: names ∧
        (names.Pairwise fun a b ↦ compare a b = .lt) ∧
        ∀ name, name ∈ names ↔ (r.shell.vfs.child dir name).isSome) := by
  refine ⟨fun pflags hpkt hflags ↦ ?_, fun hpkt ↦ ?_⟩
  · obtain ⟨node, data, metadata, hnode, hdata, hkey⟩ := getElem?_of_open hpkt hflags hreply
    exact ⟨node, data, hnode, hdata, yields_of_getElem? hkey⟩
  · obtain ⟨dir, hdir, hkey⟩ := getElem?_of_opendir hpkt hreply
    refine ⟨dir, _, hdir, lists_of_getElem? hkey, map_name_dirEntries .., Vfs.pairwise_entries _ _,
      fun name ↦ ?_⟩
    rw [List.mem_map, Option.isSome_iff_exists]
    constructor
    · rintro ⟨⟨name, c⟩, hmem, rfl⟩
      exact ⟨c, Vfs.mem_entries_iff.mp hmem⟩
    · rintro ⟨c, hc⟩
      exact ⟨(name, c), Vfs.mem_entries_iff.mpr hc, rfl⟩

/-- A shell in a root directory that has a file `f` of two bytes. -/
def fileShell : Shell := ⟨((Vfs.new 0).addFile 0 0 ['f'] [104, 105] 0o644 0 0).1, 0, 0, 0⟩

/-- `OPEN /f`, for reading. -/
def openFile : Request := ⟨⟨0, fun data ↦ data⟩, fileShell,
  sshFxpOpen :: encode 4 7 ++ (encode 4 2 ++ [47, 102]) ++ encode 4 1 ++ encode 4 0⟩

/-- `OPENDIR /`. -/
def openRoot : Request := ⟨⟨0, fun data ↦ data⟩, fileShell,
  sshFxpOpendir :: encode 4 7 ++ (encode 4 1 ++ [47])⟩

theorem opened_reads_back_fileShell :
    Yields 1024 [0, 0, 0, 1] (openFile.apply 1024 .new) [104, 105] ∧
      Lists 1024 [0, 0, 0, 1] (openRoot.apply 1024 .new)
        (dirEntries openRoot.ambient fileShell.vfs 0) := by
  constructor
  · obtain ⟨node, data, hnode, hdata, hyields⟩ := (opened_reads_back 1024 .new openFile 7
      [0, 0, 0, 1] ['/', 'f'] (by decide +kernel)).1 1 (by decide +kernel) (by decide)
    have hfile : openFile.target ['/', 'f'] = some 1 := by decide +kernel
    cases hnode.symm.trans hfile
    have hbytes : (openFile.shell.vfs.node 1).fileBytes openFile.ambient.now = some [104, 105] := by
      decide +kernel
    cases hdata.symm.trans hbytes
    exact hyields
  · obtain ⟨dir, names, hdir, hlists, -⟩ := (opened_reads_back 1024 .new openRoot 7
      [0, 0, 0, 1] ['/'] (by decide +kernel)).2 (by decide +kernel)
    have hroot : openRoot.target ['/'] = some 0 := by decide +kernel
    cases hdir.symm.trans hroot
    exact hlists

end Sftp

end Mimic
