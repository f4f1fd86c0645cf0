import Mimic.Foundation.GuardedRun
import Mimic.Foundation.MapSum
import Mimic.Network.SftpOutcome

/-!
# The handles of a session

What one packet does to the table of open handles (`handlePacket_handles`): nothing, one new handle,
another state of one handle, or one handle less. Everything about handles over runs is derived from
this.

The counter `buffered_bytes` is charged in `OPEN` and `WRITE` and credited in `CLOSE`. Along every
run it is the sum of what the handles hold, and the caps on the session, on one upload and on the
number of handles hold (`accounting_run`). Handles are numbered with 32 bits, so this is for
sessions that have allocated fewer than `2 ^ 32` of them: the next one would take the place of one
that may still be open.
-/

namespace Mimic

namespace Sftp

open Wire BigEndian GuardedRun MapSum

/-! ### What a packet does to the handles -/

/-- Two states of one handle, with the same bytes in it. -/
inductive SameContents : SftpHandle → SftpHandle → Prop
  /-- A directory that was read on. -/
  | dir (entries : List DirEntry) (offset offset' : ℕ) :
      SameContents (.dir entries offset) (.dir entries offset')
  /-- An upload with another mode. -/
  | mode (file : WriteFile) (mode : UInt32) :
      SameContents (.writeFile file) (.writeFile { file with mode := mode })

/-- A handle as it is opened: what it may hold, in a session with this many bytes buffered. -/
inductive Opened (maxUploadBytes buffered : ℕ) : SftpHandle → Prop
  | dir (entries : List DirEntry) : Opened maxUploadBytes buffered (.dir entries 0)
  | readFile (data : Bytes) (metadata : Metadata) :
      min (buffered + data.length) u64Max ≤ SftpSession.bufferCap maxUploadBytes →
      Opened maxUploadBytes buffered (.readFile data metadata)
  | writeFile (destPath name : Str) (mode : UInt32) :
      Opened maxUploadBytes buffered (.writeFile ⟨destPath, name, [], 0, [], mode, false⟩)

/-- The uploads that closing a handle completes. -/
def SftpHandle.uploads (ambient : Ambient) : SftpHandle → List CompletedUpload
  | .writeFile file => [completedUpload ambient file]
  | _ => []

/-- The upload after a `WRITE` and the bytes it grew by. -/
def received (maxUploadBytes : ℕ) (s : SftpSession) (file : WriteFile) (rawOffset : ℕ)
    (chunk : Bytes) : WriteFile × ℕ :=
  storeChunk maxUploadBytes (SftpSession.bufferCap maxUploadBytes - s.bufferedBytes)
    { file with hashed := file.hashed ++ chunk, size := file.size + chunk.length } rawOffset chunk

/-- The ways in which a packet turns `x` into `y`, as far as handles and uploads are concerned. -/
inductive HandleStep (ambient : Ambient) (maxUploadBytes : ℕ) (x y : Exchange) : Prop
  | same (hsession : y.session = x.session) (hcompleted : y.completed = x.completed)
  | alloc (handle : SftpHandle) (hroom : x.session.handles.size < maxSftpHandles)
      (hopened : Opened maxUploadBytes x.session.bufferedBytes handle)
      (hsession : y.session = { x.session with
        bufferedBytes := x.session.bufferedBytes + handle.held }.insertHandle handle)
      (hcompleted : y.completed = x.completed)
  | update (key : Bytes) (handle handle' : SftpHandle)
      (hkey : x.session.handles[key]? = some handle) (hsame : SameContents handle handle')
      (hsession : y.session = { x.session with
        handles := x.session.handles.insert key handle' })
      (hcompleted : y.completed = x.completed)
  | write (key : Bytes) (file : WriteFile) (rawOffset : ℕ) (chunk : Bytes)
      (hkey : x.session.handles[key]? = some (.writeFile file)) (hoffset : rawOffset ≤ u64Max)
      (hsession : y.session = { x.session with
        handles := x.session.handles.insert key
          (.writeFile (received maxUploadBytes x.session file rawOffset chunk).1)
        bufferedBytes := x.session.bufferedBytes +
          (received maxUploadBytes x.session file rawOffset chunk).2 })
      (hcompleted : y.completed = x.completed)
  | close (key : Bytes) (handle : SftpHandle)
      (hkey : x.session.handles[key]? = some handle)
      (hsession : y.session = { x.session with
        handles := x.session.handles.erase key
        bufferedBytes := x.session.bufferedBytes - handle.held })
      (hcompleted : y.completed = x.completed ++ handle.uploads ambient)

section Handlers

variable (ambient : Ambient) (maxUploadBytes : ℕ) (id : UInt32) (cursor : Bytes) (x : Exchange)

theorem handleOpendir_handles :
    HandleStep ambient maxUploadBytes x (handleOpendir ambient id cursor x) := by
  rw [handleOpendir]
  split
  · exact .same rfl rfl
  split
  · split
    · split
      · exact .same rfl rfl
      · rename_i hroom
        exact .alloc _ (not_le.1 hroom) (.dir _) rfl rfl
    · exact .same rfl rfl
  · exact .same rfl rfl

theorem handleOpen_handles :
    HandleStep ambient maxUploadBytes x (handleOpen ambient maxUploadBytes id cursor x) := by
  rw [handleOpen]
  split
  · exact .same rfl rfl
  split
  · exact .same rfl rfl
  dsimp only
  split
  · exact .same rfl rfl
  split
  · exact .same rfl rfl
  rename_i hroom
  split
  · exact .alloc _ (not_le.1 hroom) (.writeFile ..) rfl rfl
  split
  · split
    · split
      · split
        · exact .same rfl rfl
        · rename_i hcap
          rw [Bool.not_eq_true', Bool.not_eq_false, SftpSession.canBuffer, decide_eq_true_iff]
            at hcap
          exact .alloc _ (not_le.1 hroom) (.readFile _ _ hcap) rfl rfl
      · exact .same rfl rfl
    · exact .same rfl rfl
  · exact .same rfl rfl

theorem handleReaddir_handles :
    HandleStep ambient maxUploadBytes x (handleReaddir id cursor x) := by
  rw [handleReaddir]
  split
  · exact .same rfl rfl
  split
  · rename_i hkey
    split
    · exact .same rfl rfl
    · exact .update _ _ _ hkey (.dir ..) rfl rfl
  · exact .same rfl rfl

theorem handleWrite_handles :
    HandleStep ambient maxUploadBytes x (handleWrite maxUploadBytes id cursor x) := by
  rw [handleWrite]
  split
  · exact .same rfl rfl
  split
  · exact .same rfl rfl
  split
  · exact .same rfl rfl
  dsimp only
  split
  · rename_i rawOffset _ _ _ _ _ _ _ _ hkey
    exact .write _ _ _ _ hkey (Nat.le_pred_of_lt rawOffset.toNat_lt) rfl rfl
  · exact .same rfl rfl

theorem handleClose_handles :
    HandleStep ambient maxUploadBytes x (handleClose ambient id cursor x) := by
  rw [handleClose]
  split
  · exact .same rfl rfl
  split
  · rename_i handle hkey
    dsimp only
    rcases handle with ⟨entries, offset⟩ | ⟨data, metadata⟩ | file
    · exact .close _ _ hkey rfl (List.append_nil _).symm
    · exact .close _ _ hkey rfl (List.append_nil _).symm
    · exact .close _ _ hkey rfl rfl
  · exact .same rfl rfl

theorem handleFsetstat_handles :
    HandleStep ambient maxUploadBytes x (handleFsetstat id cursor x) := by
  rw [handleFsetstat]
  split
  · exact .same rfl rfl
  dsimp only
  split
  · rename_i file hkey
    split
    · exact .update _ _ _ hkey (.mode file _) rfl rfl
    · exact .update _ _ _ hkey (.mode file file.mode) rfl rfl
  · exact .same rfl rfl
  · exact .same rfl rfl

theorem unchanged_ite {y z : Exchange} {p : Prop} [Decidable p]
    (hy : y.session = x.session ∧ y.completed = x.completed)
    (hz : z.session = x.session ∧ z.completed = x.completed) :
    (if p then y else z).session = x.session ∧ (if p then y else z).completed = x.completed := by
  split
  · exact hy
  · exact hz

/-- Requests about paths, and those that only read a handle, leave the session alone. -/
theorem handlePath_session (msgType : UInt8) (hopendir : msgType ≠ sshFxpOpendir)
    (hopen : msgType ≠ sshFxpOpen) (hreaddir : msgType ≠ sshFxpReaddir)
    (hwrite : msgType ≠ sshFxpWrite) (hclose : msgType ≠ sshFxpClose)
    (hfsetstat : msgType ≠ sshFxpFsetstat) :
    (handleRequest ambient maxUploadBytes id cursor x msgType).session = x.session ∧
      (handleRequest ambient maxUploadBytes id cursor x msgType).completed = x.completed := by
  rw [handleRequest, if_neg hopendir, if_neg hreaddir, if_neg hopen, if_neg hwrite, if_neg hclose,
    if_neg hfsetstat]
  refine unchanged_ite x ?_ ?_
  · rw [handleRealpath]
    split <;> exact ⟨rfl, rfl⟩
  refine unchanged_ite x ?_ ?_
  · rw [handleStat]
    repeat' split
    all_goals exact ⟨rfl, rfl⟩
  refine unchanged_ite x ?_ ?_
  · rw [handleLstat]
    dsimp only
    repeat' split
    all_goals exact ⟨rfl, rfl⟩
  refine unchanged_ite x ?_ ?_
  · rw [handleRead]
    dsimp only
    repeat' split
    all_goals exact ⟨rfl, rfl⟩
  refine unchanged_ite x ?_ ?_
  · rw [handleFstat]
    repeat' split
    all_goals exact ⟨rfl, rfl⟩
  refine unchanged_ite x ?_ ?_
  · rw [handleSetstat]
    repeat' split
    all_goals exact ⟨rfl, rfl⟩
  refine unchanged_ite x ?_ ?_
  · rw [handleRemove]
    dsimp only
    repeat' split
    all_goals exact ⟨rfl, rfl⟩
  refine unchanged_ite x ?_ ?_
  · rw [handleMkdir]
    dsimp only
    repeat' split
    all_goals exact ⟨rfl, rfl⟩
  refine unchanged_ite x ?_ ?_
  · rw [handleRmdir]
    dsimp only
    repeat' split
    all_goals exact ⟨rfl, rfl⟩
  refine unchanged_ite x ?_ ?_
  · rw [handleRename]
    dsimp only
    repeat' split
    all_goals exact ⟨rfl, rfl⟩
  refine unchanged_ite x ?_ ?_
  · rw [handleReadlink]
    dsimp only
    repeat' split
    all_goals exact ⟨rfl, rfl⟩
  refine unchanged_ite x ?_ ⟨rfl, rfl⟩
  · rw [handleSymlink]
    dsimp only
    repeat' split
    all_goals exact ⟨rfl, rfl⟩

theorem handleRequest_handles (msgType : UInt8) :
    HandleStep ambient maxUploadBytes x
      (handleRequest ambient maxUploadBytes id cursor x msgType) := by
  by_cases hopendir : msgType = sshFxpOpendir
  · subst hopendir
    exact handleOpendir_handles ambient maxUploadBytes id cursor x
  by_cases hopen : msgType = sshFxpOpen
  · subst hopen
    exact handleOpen_handles ambient maxUploadBytes id cursor x
  by_cases hreaddir : msgType = sshFxpReaddir
  · subst hreaddir
    exact handleReaddir_handles ambient maxUploadBytes id cursor x
  by_cases hwrite : msgType = sshFxpWrite
  · subst hwrite
    exact handleWrite_handles ambient maxUploadBytes id cursor x
  by_cases hclose : msgType = sshFxpClose
  · subst hclose
    exact handleClose_handles ambient maxUploadBytes id cursor x
  by_cases hfsetstat : msgType = sshFxpFsetstat
  · subst hfsetstat
    exact handleFsetstat_handles ambient maxUploadBytes id cursor x
  obtain ⟨hsession, hcompleted⟩ := handlePath_session ambient maxUploadBytes id cursor x msgType
    hopendir hopen hreaddir hwrite hclose hfsetstat
  exact .same hsession hcompleted

/-- **What a packet does to the handles.** -/
theorem handlePacket_handles (pkt : Bytes) :
    HandleStep ambient maxUploadBytes x (handlePacket ambient maxUploadBytes pkt x) := by
  rcases pkt with - | ⟨msgType, cursor⟩
  · exact .same rfl rfl
  rw [handlePacket]
  split
  · exact .same rfl rfl
  rcases getU32 cursor with - | ⟨id, body⟩
  · exact .same rfl rfl
  · exact handleRequest_handles ambient maxUploadBytes id body x msgType

end Handlers

/-! ### What an upload may grow by -/

section Store

variable {maxUploadBytes budgetLeft : ℕ} {file : WriteFile} {rawOffset : ℕ} {chunk data : Bytes}

theorem length_overwrite (data : Bytes) (offset : ℕ) (chunk : Bytes)
    (h : offset + chunk.length ≤ data.length) :
    (overwrite data offset chunk).length = data.length := by
  rw [overwrite, List.length_append, List.length_append, List.length_take, List.length_drop]
  omega

/-- `grow_to` grows by what it reports, within the budget, and no further than asked. -/
theorem growTo_spec {last grew : ℕ} {data' : Bytes}
    (h : growTo budgetLeft data last = some (data', grew)) :
    data'.length = data.length + grew ∧ grew ≤ budgetLeft ∧
      data'.length = max data.length last := by
  rw [growTo] at h
  split at h
  · obtain ⟨rfl, rfl⟩ := Prod.mk.inj (Option.some.inj h)
    exact ⟨rfl, Nat.zero_le _, by omega⟩
  · dsimp only at h
    split at h
    · cases h
    · obtain ⟨rfl, rfl⟩ := Prod.mk.inj (Option.some.inj h)
      rw [List.length_append, List.length_replicate]
      omega

/-- **What a `WRITE` stores**: it charges what the upload grows by, within the budget, and keeps the
upload within its cap. -/
theorem storeChunk_spec (maxUploadBytes budgetLeft : ℕ) (file : WriteFile) (rawOffset : ℕ)
    (chunk : Bytes) (hoffset : rawOffset ≤ u64Max)
    (hfits : (storeChunk maxUploadBytes budgetLeft file rawOffset chunk).1.data.length ≤ u64Max) :
    (storeChunk maxUploadBytes budgetLeft file rawOffset chunk).1.data.length =
      file.data.length + (storeChunk maxUploadBytes budgetLeft file rawOffset chunk).2 ∧
    (storeChunk maxUploadBytes budgetLeft file rawOffset chunk).2 ≤ budgetLeft ∧
    (storeChunk maxUploadBytes budgetLeft file rawOffset chunk).1.data.length ≤
      max file.data.length maxUploadBytes := by
  rw [storeChunk] at hfits ⊢
  dsimp only at hfits ⊢
  split at hfits
  · rename_i hcap
    rw [if_pos hcap]
    rcases hgrow : growTo budgetLeft file.data (min (rawOffset + chunk.length) u64Max)
      with - | ⟨data, grew⟩
    · exact ⟨rfl, Nat.zero_le _, le_max_left _ _⟩
    · obtain ⟨hlen, hbudget, hmax⟩ := growTo_spec hgrow
      -- where the end saturates, the chunk does not fit in the address space
      have hend : rawOffset + chunk.length ≤ data.length := by
        rw [hgrow] at hfits
        dsimp only at hfits
        rw [overwrite, List.length_append, List.length_append, List.length_take] at hfits
        omega
      dsimp only
      rw [length_overwrite _ _ _ hend]
      omega
  · rename_i hcap
    rw [if_neg hcap]
    split
    · split
      · rename_i data grew hgrow
        obtain ⟨hlen, hbudget, hmax⟩ := growTo_spec hgrow
        rw [length_overwrite _ _ _ (by rw [List.length_take]; omega)]
        omega
      · exact ⟨rfl, Nat.zero_le _, le_max_left _ _⟩
    · exact ⟨rfl, Nat.zero_le _, le_max_left _ _⟩

/-- The growth that is charged was taken off the budget, so `budget_left - grew` does not
underflow. -/
theorem storeChunk_grew_le (maxUploadBytes budgetLeft : ℕ) (file : WriteFile) (rawOffset : ℕ)
    (chunk : Bytes) :
    (storeChunk maxUploadBytes budgetLeft file rawOffset chunk).2 ≤ budgetLeft := by
  rw [storeChunk]
  dsimp only
  split
  · split
    · rename_i hgrow
      exact (growTo_spec hgrow).2.1
    · exact Nat.zero_le _
  · split
    · split
      · rename_i hgrow
        exact (growTo_spec hgrow).2.1
      · exact Nat.zero_le _
    · exact Nat.zero_le _

end Store

/-! ### Handle accounting over runs -/

/-- A request on a session, with what it reads besides: the shell is the one at the time. -/
structure Request where
  ambient : Ambient
  shell : Shell
  pkt : Bytes

namespace Request

/-- The session after a request. -/
def apply (maxUploadBytes : ℕ) (r : Request) (s : SftpSession) : SftpSession :=
  (handlePacket r.ambient maxUploadBytes r.pkt ⟨s, r.shell, [], []⟩).session

/-- The handles a request allocates, one or none. -/
def allocs (maxUploadBytes : ℕ) (r : Request) (s : SftpSession) : ℕ :=
  if (r.apply maxUploadBytes s).nextHandle = s.nextHandle then 0 else 1

/-- What the handles hold after the request is in the address space. A request that would need more
ends the process instead. -/
def Fits (maxUploadBytes : ℕ) (r : Request) (s : SftpSession) : Prop :=
  mapSum SftpHandle.held (r.apply maxUploadBytes s).handles ≤ u64Max

instance (maxUploadBytes : ℕ) (r : Request) (s : SftpSession) :
    Decidable (r.Fits maxUploadBytes s) :=
  inferInstanceAs (Decidable (_ ≤ _))

end Request

/-- The accounting of a session: the counter is what the handles hold, and the caps hold. -/
structure Accounted (maxUploadBytes : ℕ) (s : SftpSession) : Prop where
  buffered : s.bufferedBytes = mapSum SftpHandle.held s.handles
  cap : s.bufferedBytes ≤ SftpSession.bufferCap maxUploadBytes
  size : s.handles.size ≤ maxSftpHandles
  file : ∀ (key : Bytes) (file : WriteFile), s.handles[key]? = some (.writeFile file) →
    file.data.length ≤ maxUploadBytes

/-- After `n` allocations: the next handle is number `n + 1`, and all handles are earlier ones. -/
structure Numbered (n : ℕ) (s : SftpSession) : Prop where
  next : s.nextHandle.toNat = (n + 1) % 2 ^ 32
  earlier : ∀ key ∈ s.handles, ∃ i < n, key = encode 4 (i + 1)

theorem accounted_new (maxUploadBytes : ℕ) : Accounted maxUploadBytes SftpSession.new where
  buffered := mapSum_empty.symm
  cap := Nat.zero_le _
  size := by decide
  file _ _ h := by
    rw [show SftpSession.new.handles = ∅ from rfl, Std.ExtTreeMap.getElem?_empty] at h
    cases h

theorem numbered_new : Numbered 0 SftpSession.new where
  next := by decide
  earlier key h := absurd h Std.ExtTreeMap.not_mem_empty

section Step

variable {ambient : Ambient} {maxUploadBytes n : ℕ} {x y : Exchange} {s : SftpSession} {key : Bytes}

/-- The handle that is allocated next is not open. -/
theorem Numbered.getElem?_handleBytes (h : Numbered n s) (hn : n < 2 ^ 32 - 1) :
    s.handles[s.handleBytes]? = none := by
  by_contra hopen
  obtain ⟨i, hi, hkey⟩ := h.earlier _ (Std.ExtTreeMap.mem_iff_isSome_getElem?.2
    (Option.isSome_iff_ne_none.2 hopen))
  rw [SftpSession.handleBytes, h.next, Nat.mod_eq_of_lt (by omega)] at hkey
  have hdecode := congrArg decode hkey
  rw [decode_encode_of_lt (by omega), decode_encode_of_lt (by omega)] at hdecode
  omega

/-- Replacing the state of an open handle opens none. -/
theorem Numbered.insert (h : Numbered n s) (hkey : key ∈ s.handles) (handle : SftpHandle)
    (buffered : ℕ) : Numbered n { s with
      handles := s.handles.insert key handle, bufferedBytes := buffered } where
  next := h.next
  earlier key' h' := by
    rcases Std.ExtTreeMap.mem_insert.1 h' with heq | h'
    · exact h.earlier key' (Std.LawfulEqCmp.eq_of_compare heq ▸ hkey)
    · exact h.earlier key' h'

theorem Numbered.alloc (h : Numbered n s) (hn : n < 2 ^ 32 - 1) (handle : SftpHandle)
    (buffered : ℕ) :
    Numbered (n + 1) ({ s with bufferedBytes := buffered }.insertHandle handle) where
  next := by
    show (s.nextHandle + 1).toNat = _
    rw [UInt32.toNat_add, h.next]
    show ((n + 1) % 2 ^ 32 + 1) % 2 ^ 32 = _
    omega
  earlier key' h' := by
    rcases Std.ExtTreeMap.mem_insert.1 h' with heq | h'
    · refine ⟨n, Nat.lt_succ_self n, ?_⟩
      rw [← Std.LawfulEqCmp.eq_of_compare heq]
      show encode 4 s.nextHandle.toNat = _
      rw [h.next, Nat.mod_eq_of_lt (by omega)]
    · obtain ⟨i, hi, hkey⟩ := h.earlier key' h'
      exact ⟨i, hi.trans (Nat.lt_succ_self n), hkey⟩

theorem mem_handles_of_getElem? {handle : SftpHandle} (h : s.handles[key]? = some handle) :
    key ∈ s.handles :=
  Std.ExtTreeMap.mem_iff_isSome_getElem?.2 (h ▸ rfl)

/-- An allocation moves on to the next number. -/
theorem nextHandle_insertHandle_ne (s : SftpSession) (handle : SftpHandle) :
    (s.insertHandle handle).nextHandle ≠ s.nextHandle := by
  intro heq
  have hnum : (s.nextHandle + 1).toNat = s.nextHandle.toNat := congrArg UInt32.toNat heq
  have hlt := s.nextHandle.toNat_lt
  rw [UInt32.toNat_add] at hnum
  change (_ + 1) % 2 ^ 32 = _ at hnum
  omega

/-- The allocations of a packet. -/
def HandleStep.allocations (x y : Exchange) : ℕ :=
  if y.session.nextHandle = x.session.nextHandle then 0 else 1

/-- **One packet keeps the numbering.** -/
theorem HandleStep.numbered (hstep : HandleStep ambient maxUploadBytes x y)
    (h : Numbered n x.session) (hn : n + HandleStep.allocations x y < 2 ^ 32) :
    Numbered (n + HandleStep.allocations x y) y.session := by
  rw [HandleStep.allocations] at hn ⊢
  cases hstep with
  | same hsession hcompleted =>
    rw [hsession, if_pos rfl]
    exact h
  | alloc handle hroom hopened hsession hcompleted =>
    have hne : y.session.nextHandle ≠ x.session.nextHandle := by
      rw [hsession]
      exact nextHandle_insertHandle_ne { x.session with bufferedBytes := _ } handle
    rw [if_neg hne] at hn ⊢
    rw [hsession]
    exact h.alloc (by omega) handle _
  | update key handle handle' hkey hsame hsession hcompleted =>
    rw [hsession, if_pos rfl]
    exact h.insert (mem_handles_of_getElem? hkey) handle' _
  | write key file rawOffset chunk hkey hoffset hsession hcompleted =>
    rw [hsession, if_pos rfl]
    exact h.insert (mem_handles_of_getElem? hkey) _ _
  | close key handle hkey hsession hcompleted =>
    rw [hsession, if_pos rfl]
    exact ⟨h.next, fun key' h' ↦ h.earlier key' (Std.ExtTreeMap.mem_of_mem_erase h')⟩

theorem bufferCap_le (maxUploadBytes : ℕ) :
    SftpSession.bufferCap maxUploadBytes ≤ 2 * maxUploadBytes ∧
      SftpSession.bufferCap maxUploadBytes ≤ u64Max := by
  rw [SftpSession.bufferCap, sftpSessionBufferMultiplier]
  omega

theorem SameContents.held_eq {handle handle' : SftpHandle} (h : SameContents handle handle') :
    handle'.held = handle.held := by
  cases h <;> rfl

/-- The uploads of a table in which one handle has another state. -/
theorem Accounted.file_insert (h : Accounted maxUploadBytes s) {handle : SftpHandle}
    (hfile : ∀ file, handle = .writeFile file → file.data.length ≤ maxUploadBytes)
    {key' : Bytes} {file : WriteFile}
    (hkey : (s.handles.insert key handle)[key']? = some (.writeFile file)) :
    file.data.length ≤ maxUploadBytes := by
  rw [Std.ExtTreeMap.getElem?_insert] at hkey
  split at hkey
  · exact hfile file (Option.some.inj hkey)
  · exact h.file key' file hkey

theorem size_insert_of_getElem? {handle : SftpHandle} (h : s.handles[key]? = some handle)
    (handle' : SftpHandle) : (s.handles.insert key handle').size = s.handles.size := by
  rw [Std.ExtTreeMap.size_insert, if_pos (Std.ExtTreeMap.contains_iff_mem.2
    (mem_handles_of_getElem? h))]

namespace Accounted

variable (h : Accounted maxUploadBytes s)

include h

theorem alloc {handle : SftpHandle} (hroom : s.handles.size < maxSftpHandles)
    (hopened : Opened maxUploadBytes s.bufferedBytes handle)
    (hfresh : s.handles[s.handleBytes]? = none)
    (hfits : mapSum SftpHandle.held (s.handles.insert s.handleBytes handle) ≤ u64Max) :
    Accounted maxUploadBytes
      ({ s with bufferedBytes := s.bufferedBytes + handle.held }.insertHandle handle) := by
  have hsum := mapSum_insert_of_none (v := handle) (w := SftpHandle.held) hfresh
  have hcount := h.buffered
  refine ⟨?_, ?_, Std.ExtTreeMap.size_insert_le.trans hroom, fun key file hkey ↦ ?_⟩
  · show s.bufferedBytes + handle.held = mapSum _ (s.handles.insert s.handleBytes handle)
    omega
  · show s.bufferedBytes + handle.held ≤ _
    cases hopened with
    | dir => exact h.cap
    | writeFile => exact h.cap
    | readFile data metadata hcap =>
      -- what is held is in the address space, so the check did not saturate
      change s.bufferedBytes + data.length ≤ _
      change mapSum _ _ = data.length + _ at hsum
      omega
  · refine h.file_insert (fun file hfile ↦ ?_) hkey
    subst hfile
    cases hopened
    exact Nat.zero_le _

theorem update {handle handle' : SftpHandle} (hkey : s.handles[key]? = some handle)
    (hsame : SameContents handle handle') :
    Accounted maxUploadBytes { s with handles := s.handles.insert key handle' } := by
  have hsum := mapSum_insert_of_some (v := handle') (w := SftpHandle.held) hkey
  rw [hsame.held_eq] at hsum
  have hcount := h.buffered
  refine ⟨?_, h.cap, (size_insert_of_getElem? hkey handle').trans_le h.size,
    fun key' file hkey' ↦ ?_⟩
  · show s.bufferedBytes = mapSum _ (s.handles.insert key handle')
    omega
  · refine h.file_insert (fun file hfile ↦ ?_) hkey'
    subst hfile
    cases hsame with
    | mode file' mode => exact h.file key file' hkey

theorem write {file : WriteFile} {rawOffset : ℕ} {chunk : Bytes}
    (hkey : s.handles[key]? = some (.writeFile file)) (hoffset : rawOffset ≤ u64Max)
    (hfits : mapSum SftpHandle.held (s.handles.insert key
      (.writeFile (received maxUploadBytes s file rawOffset chunk).1)) ≤ u64Max) :
    Accounted maxUploadBytes { s with
      handles := s.handles.insert key
        (.writeFile (received maxUploadBytes s file rawOffset chunk).1)
      bufferedBytes := s.bufferedBytes + (received maxUploadBytes s file rawOffset chunk).2 } := by
  have hsum := mapSum_insert_of_some
    (v := .writeFile (received maxUploadBytes s file rawOffset chunk).1)
    (w := SftpHandle.held) hkey
  change _ + file.data.length = (received _ _ _ _ _).1.data.length + _ at hsum
  have hlength : file.data.length ≤ mapSum SftpHandle.held s.handles := by
    rw [mapSum_erase_of_some hkey]
    exact Nat.le_add_right _ _
  have hdata : (received maxUploadBytes s file rawOffset chunk).1.data.length ≤ u64Max := by omega
  obtain ⟨hgrew, hbudget, hmax⟩ := storeChunk_spec _ _ _ _ _ hoffset hdata
  change (received maxUploadBytes s file rawOffset chunk).1.data.length =
    file.data.length + (received maxUploadBytes s file rawOffset chunk).2 at hgrew
  change (received maxUploadBytes s file rawOffset chunk).2 ≤ _ at hbudget
  have hcount := h.buffered
  have hcap := h.cap
  refine ⟨?_, ?_, (size_insert_of_getElem? hkey _).trans_le h.size, fun key' file' hkey' ↦ ?_⟩
  · show s.bufferedBytes + _ = mapSum _ (s.handles.insert key _)
    omega
  · show s.bufferedBytes + _ ≤ _
    omega
  · refine h.file_insert (fun file'' hfile ↦ ?_) hkey'
    obtain rfl := SftpHandle.writeFile.inj hfile
    exact hmax.trans (max_le (h.file key file hkey) le_rfl)

theorem close {handle : SftpHandle} (hkey : s.handles[key]? = some handle) :
    Accounted maxUploadBytes { s with
      handles := s.handles.erase key
      bufferedBytes := s.bufferedBytes - handle.held } := by
  have hsum := mapSum_erase_of_some (w := SftpHandle.held) hkey
  have hcount := h.buffered
  have hcap := h.cap
  refine ⟨?_, ?_, Std.ExtTreeMap.size_erase_le.trans h.size, fun key' file hkey' ↦ ?_⟩
  · show s.bufferedBytes - handle.held = mapSum _ (s.handles.erase key)
    omega
  · show s.bufferedBytes - handle.held ≤ _
    omega
  · change (s.handles.erase key)[key']? = _ at hkey'
    rw [Std.ExtTreeMap.getElem?_erase] at hkey'
    split at hkey'
    · cases hkey'
    · exact h.file key' file hkey'

end Accounted

/-- **One packet keeps the accounting**, if the handle it may allocate is not open. -/
theorem HandleStep.accounted (hstep : HandleStep ambient maxUploadBytes x y)
    (h : Accounted maxUploadBytes x.session)
    (hfresh : y.session.nextHandle ≠ x.session.nextHandle →
      x.session.handles[x.session.handleBytes]? = none)
    (hfits : mapSum SftpHandle.held y.session.handles ≤ u64Max) :
    Accounted maxUploadBytes y.session := by
  cases hstep with
  | same hsession hcompleted =>
    rw [hsession]
    exact h
  | alloc handle hroom hopened hsession hcompleted =>
    rw [hsession] at hfits hfresh ⊢
    exact h.alloc hroom hopened (hfresh (nextHandle_insertHandle_ne _ _)) hfits
  | update key handle handle' hkey hsame hsession hcompleted =>
    rw [hsession]
    exact h.update hkey hsame
  | write key file rawOffset chunk hkey hoffset hsession hcompleted =>
    rw [hsession] at hfits ⊢
    exact h.write hkey hoffset hfits
  | close key handle hkey hsession hcompleted =>
    rw [hsession]
    exact h.close hkey

end Step

/-- Numbering and accounting along a run that stays below `2 ^ 32` allocations. -/
theorem accounted_run {maxUploadBytes n : ℕ} {s : SftpSession} {rs : List Request}
    (hfits : Admissible (Request.apply maxUploadBytes) (Request.Fits maxUploadBytes) s rs)
    (hallocs : n + total (Request.apply maxUploadBytes) (Request.allocs maxUploadBytes) s rs <
      2 ^ 32)
    (hnum : Numbered n s) (h : Accounted maxUploadBytes s) :
    Accounted maxUploadBytes (run (Request.apply maxUploadBytes) s rs) := by
  induction rs generalizing n s with
  | nil => exact h
  | cons r rs ih =>
    obtain ⟨hr, hrs⟩ := hfits
    rw [total, ← Nat.add_assoc] at hallocs
    have hstep := handlePacket_handles r.ambient maxUploadBytes ⟨s, r.shell, [], []⟩ r.pkt
    have hnext : Numbered (n + r.allocs maxUploadBytes s) (r.apply maxUploadBytes s) :=
      hstep.numbered hnum ((Nat.le_add_right _ _).trans_lt hallocs)
    refine ih hrs hallocs hnext (hstep.accounted h (fun hne ↦ ?_) hr)
    -- a packet that allocates is counted, so the numbers are not used up
    have hone : r.allocs maxUploadBytes s = 1 := if_neg hne
    exact hnum.getElem?_handleBytes (by omega)

/-- **Handle accounting.** After any requests on one session, fewer than `2 ^ 32` of which allocate
a handle: the counter is the sum of what the open handles hold and at most twice `max_upload_bytes`,
at most 64 handles are open, no upload is longer than `max_upload_bytes`, and the growth of a
further `WRITE` fits in the budget it is taken off. -/
theorem accounting_run (maxUploadBytes : ℕ) (rs : List Request)
    (hfits : Admissible (Request.apply maxUploadBytes) (Request.Fits maxUploadBytes)
      SftpSession.new rs)
    (hallocs : total (Request.apply maxUploadBytes) (Request.allocs maxUploadBytes)
      SftpSession.new rs < 2 ^ 32) :
    (run (Request.apply maxUploadBytes) SftpSession.new rs).bufferedBytes =
        mapSum SftpHandle.held (run (Request.apply maxUploadBytes) SftpSession.new rs).handles ∧
      (run (Request.apply maxUploadBytes) SftpSession.new rs).bufferedBytes ≤ 2 * maxUploadBytes ∧
      (run (Request.apply maxUploadBytes) SftpSession.new rs).handles.size ≤ 64 ∧
      (∀ (key : Bytes) (file : WriteFile),
        (run (Request.apply maxUploadBytes) SftpSession.new rs).handles[key]? =
          some (.writeFile file) → file.data.length ≤ maxUploadBytes) ∧
      ∀ (file : WriteFile) (rawOffset : ℕ) (chunk : Bytes),
        (received maxUploadBytes (run (Request.apply maxUploadBytes) SftpSession.new rs) file
          rawOffset chunk).2 ≤ SftpSession.bufferCap maxUploadBytes -
            (run (Request.apply maxUploadBytes) SftpSession.new rs).bufferedBytes := by
  have h := accounted_run hfits (by omega) numbered_new (accounted_new maxUploadBytes)
  exact ⟨h.buffered, h.cap.trans (bufferCap_le maxUploadBytes).1, h.size, h.file,
    fun file rawOffset chunk ↦ storeChunk_grew_le ..⟩

/-- `OPEN /x` for writing, and a `WRITE` of two bytes at offset three. -/
def sparseUpload : List Request :=
  [⟨⟨0, id⟩, ⟨Vfs.new 0, 0, 0, 0⟩, sshFxpOpen :: encode 4 1 ++
      (encode 4 2 ++ [47, 120] ++ encode 4 sshFxfWrite.toNat)⟩,
    ⟨⟨0, id⟩, ⟨Vfs.new 0, 0, 0, 0⟩, sshFxpWrite :: encode 4 2 ++
      (encode 4 4 ++ encode 4 1 ++ encode 8 3 ++ (encode 4 2 ++ [7, 7]))⟩]

theorem accounting_run_sparseUpload :
    (run (Request.apply 1024) SftpSession.new sparseUpload).bufferedBytes = 5 ∧
    (run (Request.apply 1024) SftpSession.new sparseUpload).bufferedBytes =
      mapSum SftpHandle.held (run (Request.apply 1024) SftpSession.new sparseUpload).handles :=
  ⟨by decide +kernel,
    (accounting_run 1024 sparseUpload (by decide +kernel) (by decide +kernel)).1⟩

end Sftp

end Mimic
