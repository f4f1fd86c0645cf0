import Mimic.Foundation.SparseWrite
import Mimic.Network.SftpHandles

/-!
# Uploads built by writes

The `WRITE` requests on one handle, with any other requests of the session in between (`Writing`).
While the budget of the session does not refuse to let the upload grow, it holds the file that the
writes build when each chunk is cut at `max_upload_bytes` (`upload_built`). If it is not marked as
truncated, it holds the file that the whole chunks build.

An empty chunk at `max_upload_bytes` is stored: it fills the upload with zeros up to there.
-/

namespace Mimic

namespace Sftp

open Wire BigEndian GuardedRun SparseWrite

/-! ### Requests -/

/-- The handle, the offset and the chunk of a `WRITE` packet. -/
def writeRequest (pkt : Bytes) : Option (Bytes × ℕ × Bytes) :=
  match pkt with
  | [] => none
  | msgType :: cursor =>
    if msgType ≠ sshFxpWrite then none
    else do
      let (_, cursor) ← getU32 cursor
      let (handle, cursor) ← getBytes cursor
      let (rawOffset, cursor) ← getU64 cursor
      let (chunk, _) ← getBytes cursor
      return (handle, rawOffset.toNat, chunk)

/-- Whether a handle has the same upload before and after, be it with another mode. -/
def SameUpload (key : Bytes) (s t : SftpSession) : Prop :=
  ∀ file, s.handles[key]? = some (.writeFile file) →
    ∃ mode, t.handles[key]? = some (.writeFile { file with mode := mode })

/-- From `s` to `t`, the session handles these writes on the handle, of which each satisfies `P`,
and in between whatever leaves its upload as it is. -/
inductive Writing (maxUploadBytes : ℕ) (key : Bytes)
    (P : SftpSession → WriteFile → ℕ × Bytes → Prop) :
    SftpSession → List (ℕ × Bytes) → SftpSession → Prop
  | done (s : SftpSession) : Writing maxUploadBytes key P s [] s
  | write {s t : SftpSession} {file : WriteFile} {w : ℕ × Bytes} {ws : List (ℕ × Bytes)}
    (r : Request) (hkey : s.handles[key]? = some (.writeFile file))
    (hpkt : writeRequest r.pkt = some (key, w)) (hw : P s file w)
    (h : Writing maxUploadBytes key P (r.apply maxUploadBytes s) ws t) :
    Writing maxUploadBytes key P s (w :: ws) t
  | other {s s' t : SftpSession} {ws : List (ℕ × Bytes)} (hsame : SameUpload key s s')
    (h : Writing maxUploadBytes key P s' ws t) : Writing maxUploadBytes key P s ws t

/-- The bytes after the write are in the address space. A request that would need more ends the
process instead. -/
def InSpace (maxUploadBytes : ℕ) (s : SftpSession) (file : WriteFile) (w : ℕ × Bytes) : Prop :=
  (received maxUploadBytes s file w.1 w.2).1.data.length ≤ u64Max

/-- The budget of the session lets the upload grow as far as the chunk is stored. -/
structure Unrefused (maxUploadBytes : ℕ) (s : SftpSession) (file : WriteFile) (w : ℕ × Bytes) :
    Prop where
  budget : w.1 < maxUploadBytes ∨ w.1 + w.2.length ≤ maxUploadBytes →
    min (w.1 + w.2.length) maxUploadBytes - file.data.length ≤
      SftpSession.bufferCap maxUploadBytes - s.bufferedBytes
  space : InSpace maxUploadBytes s file w

section Apply

variable {maxUploadBytes budgetLeft : ℕ} {key : Bytes} {s : SftpSession} {file : WriteFile}
  {w : ℕ × Bytes} {data chunk : Bytes} {offset : ℕ}

/-- A `WRITE` request stores its chunk. -/
theorem apply_write {r : Request} (hkey : s.handles[key]? = some (.writeFile file))
    (hpkt : writeRequest r.pkt = some (key, w)) :
    (r.apply maxUploadBytes s).handles[key]? =
      some (.writeFile (received maxUploadBytes s file w.1 w.2).1) := by
  obtain ⟨ambient, shell, pkt⟩ := r
  rw [Request.apply]
  dsimp only at hpkt ⊢
  rcases pkt with - | ⟨msgType, cursor⟩
  · cases hpkt
  simp only [writeRequest, Option.bind_eq_bind] at hpkt
  split at hpkt
  · cases hpkt
  rename_i htype
  obtain rfl := not_not.mp htype
  obtain ⟨⟨id, body⟩, hid, hpkt⟩ := Option.bind_eq_some_iff.mp hpkt
  obtain ⟨⟨handle, body'⟩, hhandle, hpkt⟩ := Option.bind_eq_some_iff.mp hpkt
  obtain ⟨⟨rawOffset, body''⟩, hoffset, hpkt⟩ := Option.bind_eq_some_iff.mp hpkt
  obtain ⟨⟨chunk, extra⟩, hchunk, hpkt⟩ := Option.bind_eq_some_iff.mp hpkt
  cases hpkt
  have hcall : handlePacket ambient maxUploadBytes (sshFxpWrite :: cursor) ⟨s, shell, [], []⟩ =
      handleWrite maxUploadBytes id body ⟨s, shell, [], []⟩ := by
    rw [handlePacket, if_neg (by decide), hid]
    rfl
  rw [hcall, handleWrite, hhandle]
  dsimp only
  rw [hoffset]
  dsimp only
  rw [hchunk]
  dsimp only
  rw [hkey]
  exact Std.ExtTreeMap.getElem?_insert_self

/-! ### One write -/

/-- `grow_to` fills with zeros, where the budget allows it. -/
theorem growTo_eq {last : ℕ} (h : last - data.length ≤ budgetLeft) :
    growTo budgetLeft data last = some (fillTo 0 last data, last - data.length) := by
  rw [growTo]
  split
  · rename_i hle
    rw [fillTo_of_le hle, Nat.sub_eq_zero_of_le hle]
  · exact if_neg (not_lt.mpr h)

theorem growTo_some {last grew : ℕ} {data' : Bytes}
    (h : growTo budgetLeft data last = some (data', grew)) : data' = fillTo 0 last data := by
  by_cases hbudget : last - data.length ≤ budgetLeft
  · rw [growTo_eq hbudget] at h
    exact (congrArg Prod.fst (Option.some.inj h)).symm
  · rw [growTo, if_neg (by omega)] at h
    dsimp only at h
    rw [if_pos (not_le.mp hbudget)] at h
    cases h

/-- What is written behind the end of the address space is not in it. -/
theorem le_of_length_overwrite (hoffset : offset ≤ u64Max)
    (h : (overwrite (fillTo 0 (min (offset + chunk.length) u64Max) data) offset chunk).length ≤
      u64Max) : offset + chunk.length ≤ u64Max := by
  rw [overwrite, List.length_append, List.length_append, List.length_take, fillTo,
    List.length_append, List.length_replicate] at h
  omega

theorem overwrite_fillTo : overwrite (fillTo 0 (offset + chunk.length) data) offset chunk =
    pwrite 0 offset chunk data := rfl

/-- What is stored of a write: its chunk, cut at `max_upload_bytes`, unless it starts above, or is
not empty and starts there. -/
def clip (maxUploadBytes : ℕ) (w : ℕ × Bytes) : List (ℕ × Bytes) :=
  if maxUploadBytes < w.1 ∨ w.1 = maxUploadBytes ∧ w.2 ≠ [] then []
  else [(w.1, w.2.take (maxUploadBytes - w.1))]

theorem clip_within (hend : offset + chunk.length ≤ maxUploadBytes) :
    clip maxUploadBytes (offset, chunk) = [(offset, chunk)] := by
  rw [clip, if_neg, List.take_of_length_le (Nat.le_sub_of_add_le' hend)]
  rintro (hlt | ⟨rfl, hchunk⟩)
  · exact absurd hlt (not_lt.mpr (Nat.le_of_add_right_le hend))
  · exact hchunk (List.length_eq_zero_iff.mp (Nat.le_zero.mp (Nat.le_of_add_le_add_left hend)))

theorem clip_across (hoffset : offset < maxUploadBytes) :
    clip maxUploadBytes (offset, chunk) = [(offset, chunk.take (maxUploadBytes - offset))] := by
  rw [clip, if_neg]
  rintro (hlt | ⟨rfl, -⟩) <;> omega

theorem clip_behind (hoffset : maxUploadBytes ≤ offset)
    (hend : maxUploadBytes < offset + chunk.length) : clip maxUploadBytes (offset, chunk) = [] := by
  rw [clip, if_pos]
  rcases Nat.lt_or_eq_of_le hoffset with hlt | rfl
  · exact .inl hlt
  · refine .inr ⟨rfl, fun hchunk ↦ ?_⟩
    obtain rfl : chunk = [] := hchunk
    exact absurd hend (lt_irrefl _)

/-- A chunk that ends within the cap is stored whole. -/
theorem storeChunk_within (hend : offset + chunk.length ≤ maxUploadBytes)
    (hmax : maxUploadBytes ≤ u64Max)
    (hbudget : offset + chunk.length - file.data.length ≤ budgetLeft) :
    (storeChunk maxUploadBytes budgetLeft file offset chunk).1 =
      { file with data := pwrite 0 offset chunk file.data } := by
  have hraw : min (offset + chunk.length) u64Max = offset + chunk.length :=
    Nat.min_eq_left (hend.trans hmax)
  rw [storeChunk]
  dsimp only
  rw [hraw, if_pos ⟨hend, hend.trans hmax⟩, growTo_eq hbudget]
  rfl

/-- A chunk that crosses the cap is cut there. -/
theorem storeChunk_across (hoffset : offset < maxUploadBytes)
    (hend : maxUploadBytes < offset + chunk.length) (hmax : maxUploadBytes ≤ u64Max)
    (hraw : maxUploadBytes < min (offset + chunk.length) u64Max)
    (hbudget : maxUploadBytes - file.data.length ≤ budgetLeft) :
    (storeChunk maxUploadBytes budgetLeft file offset chunk).1.data =
      pwrite 0 offset (chunk.take (maxUploadBytes - offset)) file.data := by
  have htake : min (min (maxUploadBytes - offset) (u64Max - offset)) chunk.length =
      maxUploadBytes - offset := by omega
  have hlast : offset + (chunk.take (maxUploadBytes - offset)).length = maxUploadBytes := by
    rw [List.length_take]
    omega
  rw [storeChunk]
  dsimp only
  rw [if_neg fun h ↦ absurd h.1 (not_le.mpr hraw), if_pos ⟨hoffset, hoffset.trans_le hmax⟩, htake,
    Nat.add_sub_cancel' hoffset.le, growTo_eq hbudget]
  dsimp only
  rw [← overwrite_fillTo, hlast]

/-- A chunk behind the cap is not stored. -/
theorem storeChunk_behind (hoffset : maxUploadBytes ≤ offset)
    (hraw : maxUploadBytes < min (offset + chunk.length) u64Max) :
    (storeChunk maxUploadBytes budgetLeft file offset chunk).1 =
      { file with truncated := true } := by
  rw [storeChunk]
  dsimp only
  rw [if_neg fun h ↦ absurd h.1 (not_le.mpr hraw), if_neg fun h ↦ absurd h.1 (not_lt.mpr hoffset)]

/-- Where the end of a chunk saturates within the cap, it does not fit in the address space. -/
theorem storeChunk_saturated (hoffset : offset ≤ u64Max) (hend : u64Max < offset + chunk.length)
    (hmax : u64Max ≤ maxUploadBytes)
    (hspace : (storeChunk maxUploadBytes budgetLeft file offset chunk).1.data.length ≤ u64Max) :
    budgetLeft < u64Max - file.data.length ∧
      (storeChunk maxUploadBytes budgetLeft file offset chunk).1 =
        { file with truncated := true } := by
  rw [storeChunk] at hspace ⊢
  dsimp only at hspace ⊢
  rw [Nat.min_eq_right hend.le, if_pos ⟨hmax, le_rfl⟩] at hspace ⊢
  by_cases hbudget : u64Max - file.data.length ≤ budgetLeft
  · rw [growTo_eq hbudget] at hspace
    have hlength : (overwrite (fillTo 0 (min (offset + chunk.length) u64Max) file.data) offset
        chunk).length ≤ u64Max := by
      rw [Nat.min_eq_right hend.le]
      exact hspace
    exact absurd (le_of_length_overwrite hoffset hlength) (not_le.mpr hend)
  · refine ⟨not_le.mp hbudget, ?_⟩
    rw [growTo, if_neg (by omega)]
    dsimp only
    rw [if_pos (by omega)]

/-- **What a write stores**, where the budget does not refuse it. -/
theorem storeChunk_data (hoffset : offset ≤ u64Max) (hmax : maxUploadBytes ≤ u64Max)
    (hbudget : offset < maxUploadBytes ∨ offset + chunk.length ≤ maxUploadBytes →
      min (offset + chunk.length) maxUploadBytes - file.data.length ≤ budgetLeft)
    (hspace : (storeChunk maxUploadBytes budgetLeft file offset chunk).1.data.length ≤ u64Max) :
    (storeChunk maxUploadBytes budgetLeft file offset chunk).1.data =
      build 0 file.data (clip maxUploadBytes (offset, chunk)) := by
  by_cases hend : offset + chunk.length ≤ maxUploadBytes
  · have hgrow := hbudget (.inr hend)
    rw [Nat.min_eq_left hend] at hgrow
    rw [storeChunk_within hend hmax hgrow, clip_within hend]
    rfl
  rw [not_le] at hend
  by_cases hraw : maxUploadBytes < min (offset + chunk.length) u64Max
  · by_cases hstart : offset < maxUploadBytes
    · have hgrow := hbudget (.inl hstart)
      rw [Nat.min_eq_right hend.le] at hgrow
      rw [storeChunk_across hstart hend hmax hraw hgrow, clip_across hstart]
      rfl
    · rw [not_lt] at hstart
      rw [storeChunk_behind hstart hraw, clip_behind hstart hend]
      rfl
  · -- the cap is the largest number there is
    obtain rfl : maxUploadBytes = u64Max := by omega
    obtain ⟨hrefused, heq⟩ := storeChunk_saturated hoffset hend le_rfl hspace
    have hstart : u64Max ≤ offset := by
      by_contra hstart
      have hgrow := hbudget (.inl (not_le.mp hstart))
      rw [Nat.min_eq_right hend.le] at hgrow
      exact absurd hgrow (not_le.mpr hrefused)
    rw [heq, clip_behind hstart hend]
    rfl

/-- A write that does not mark the upload as truncated stores its chunk whole. -/
theorem storeChunk_whole (hoffset : offset ≤ u64Max)
    (hspace : (storeChunk maxUploadBytes budgetLeft file offset chunk).1.data.length ≤ u64Max)
    (h : (storeChunk maxUploadBytes budgetLeft file offset chunk).1.truncated = false) :
    (storeChunk maxUploadBytes budgetLeft file offset chunk).1 =
      { file with data := pwrite 0 offset chunk file.data } := by
  rw [storeChunk] at hspace h ⊢
  dsimp only at hspace h ⊢
  split at hspace
  · rename_i hcap
    rw [if_pos hcap] at h ⊢
    rcases hgrow : growTo budgetLeft file.data (min (offset + chunk.length) u64Max)
      with - | ⟨data, grew⟩
    · rw [hgrow] at h
      cases h
    · rw [hgrow] at hspace
      obtain rfl := growTo_some hgrow
      rw [Nat.min_eq_left (le_of_length_overwrite hoffset hspace)]
      rfl
  · rename_i hcap
    rw [if_neg hcap] at h
    split at h
    · split at h <;> cases h
    · cases h

end Apply

/-! ### Runs of writes -/

section Runs

variable {maxUploadBytes : ℕ} {key : Bytes} {s t : SftpSession} {file : WriteFile} {w : ℕ × Bytes}
  {ws : List (ℕ × Bytes)} {P : SftpSession → WriteFile → ℕ × Bytes → Prop}

/-- The offset of a request has 64 bits. -/
theorem offset_le_of_writeRequest {pkt : Bytes} (h : writeRequest pkt = some (key, w)) :
    w.1 ≤ u64Max := by
  rcases pkt with - | ⟨msgType, cursor⟩
  · cases h
  simp only [writeRequest, Option.bind_eq_bind] at h
  split at h
  · cases h
  obtain ⟨⟨id, body⟩, -, h⟩ := Option.bind_eq_some_iff.mp h
  obtain ⟨⟨handle, body'⟩, -, h⟩ := Option.bind_eq_some_iff.mp h
  obtain ⟨⟨rawOffset, body''⟩, -, h⟩ := Option.bind_eq_some_iff.mp h
  obtain ⟨⟨chunk, extra⟩, -, h⟩ := Option.bind_eq_some_iff.mp h
  cases h
  exact Nat.le_pred_of_lt rawOffset.toNat_lt

/-- What an upload has of the writes on it, whatever the budget. -/
structure Heard (file : WriteFile) (ws : List (ℕ × Bytes)) (file' : WriteFile) : Prop where
  size : file'.size = file.size + (ws.map fun w ↦ w.2.length).sum
  hashed : file'.hashed = file.hashed ++ stream ws
  whole : file'.truncated = false →
    file.truncated = false ∧ file'.data = build 0 file.data ws

theorem heard_nil (file : WriteFile) : Heard file [] file where
  size := rfl
  hashed := (List.append_nil _).symm
  whole h := ⟨h, rfl⟩

/-- **One write.** -/
theorem heard_cons {file' : WriteFile} (hoffset : w.1 ≤ u64Max)
    (hspace : InSpace maxUploadBytes s file w)
    (h : Heard (received maxUploadBytes s file w.1 w.2).1 ws file') :
    Heard file (w :: ws) file' := by
  obtain ⟨hsize, hhashed⟩ : (received maxUploadBytes s file w.1 w.2).1.size =
      file.size + w.2.length ∧
      (received maxUploadBytes s file w.1 w.2).1.hashed = file.hashed ++ w.2 := by
    rw [received, storeChunk]
    dsimp only
    split
    · split <;> exact ⟨rfl, rfl⟩
    · split
      · split <;> exact ⟨rfl, rfl⟩
      · exact ⟨rfl, rfl⟩
  constructor
  · rw [h.size, hsize, List.map_cons, List.sum_cons, Nat.add_assoc]
  · rw [h.hashed, hhashed, stream_cons, List.append_assoc]
  · intro htruncated
    obtain ⟨htruncated', hdata⟩ := h.whole htruncated
    have heq := storeChunk_whole hoffset hspace htruncated'
    rw [received, heq] at htruncated' hdata
    exact ⟨htruncated', hdata⟩

theorem Writing.heard (hP : ∀ s file w, P s file w → InSpace maxUploadBytes s file w)
    (h : Writing maxUploadBytes key P s ws t) (hkey : s.handles[key]? = some (.writeFile file)) :
    ∃ file', t.handles[key]? = some (.writeFile file') ∧ Heard file ws file' := by
  induction h generalizing file with
  | done => exact ⟨file, hkey, heard_nil file⟩
  | write r hkey' hpkt hw _ ih =>
    obtain rfl := SftpHandle.writeFile.inj (Option.some.inj (hkey'.symm.trans hkey))
    obtain ⟨file', hfile', hheard⟩ := ih (apply_write hkey hpkt)
    exact ⟨file', hfile', heard_cons (offset_le_of_writeRequest hpkt) (hP _ _ _ hw) hheard⟩
  | other hsame _ ih =>
    obtain ⟨mode, hmode⟩ := hsame file hkey
    obtain ⟨file', hfile', hheard⟩ := ih hmode
    exact ⟨file', hfile', hheard.size, hheard.hashed, hheard.whole⟩

/-- Where the budget refuses nothing, the chunks are stored up to the cap. -/
theorem Writing.clipped (hmax : maxUploadBytes ≤ u64Max)
    (h : Writing maxUploadBytes key (Unrefused maxUploadBytes) s ws t)
    (hkey : s.handles[key]? = some (.writeFile file)) :
    ∃ file', t.handles[key]? = some (.writeFile file') ∧
      file'.data = build 0 file.data (ws.flatMap (clip maxUploadBytes)) := by
  induction h generalizing file with
  | done => exact ⟨file, hkey, rfl⟩
  | write r hkey' hpkt hw _ ih =>
    obtain rfl := SftpHandle.writeFile.inj (Option.some.inj (hkey'.symm.trans hkey))
    obtain ⟨file', hfile', hdata⟩ := ih (apply_write hkey hpkt)
    refine ⟨file', hfile', ?_⟩
    rw [hdata, List.flatMap_cons, build_append]
    exact congrArg (build 0 · _) (storeChunk_data (offset_le_of_writeRequest hpkt) hmax hw.budget
      hw.space)
  | other hsame _ ih =>
    obtain ⟨mode, hmode⟩ := hsame file hkey
    obtain ⟨file', hfile', hdata⟩ := ih hmode
    exact ⟨file', hfile', hdata⟩

/-- **Writes build the upload.** After any sequence of `WRITE` requests on a handle of which the
budget refuses none, the upload holds the file that the chunks build when each is cut at
`max_upload_bytes`, and unless it is marked as truncated the file that the whole chunks build. Its
size has grown by the sum of their lengths. -/
theorem upload_built (hmax : maxUploadBytes ≤ u64Max)
    (hkey : s.handles[key]? = some (.writeFile file))
    (h : Writing maxUploadBytes key (Unrefused maxUploadBytes) s ws t) :
    ∃ file', t.handles[key]? = some (.writeFile file') ∧
      file'.data = build 0 file.data (ws.flatMap (clip maxUploadBytes)) ∧
      (file'.truncated = false → file'.data = build 0 file.data ws) ∧
      file'.size = file.size + (ws.map fun w ↦ w.2.length).sum := by
  obtain ⟨file', hfile', hdata⟩ := h.clipped hmax hkey
  obtain ⟨file'', hfile'', hheard⟩ := h.heard (fun _ _ _ hw ↦ hw.space) hkey
  obtain rfl := SftpHandle.writeFile.inj (Option.some.inj (hfile'.symm.trans hfile''))
  exact ⟨file', hfile', hdata, fun htruncated ↦ (hheard.whole htruncated).2, hheard.size⟩

end Runs

/-! ### Uploads of some bytes -/

/-- The upload that `OPEN /x` starts. -/
def startedUpload : WriteFile := ⟨"/x".toList, ['x'], [], 0, [], 0o644, false⟩

/-- A session with this upload as its first handle. -/
def uploading : SftpSession := SftpSession.new.insertHandle (.writeFile startedUpload)

theorem getElem?_uploading :
    uploading.handles[encode 4 1]? = some (.writeFile startedUpload) :=
  Std.ExtTreeMap.getElem?_insert_self

/-- A `WRITE` on the first handle. -/
def writeTo (offset : ℕ) (chunk : Bytes) : Request where
  ambient := ⟨0, id⟩
  shell := ⟨Vfs.new 0, 0, 0, 0⟩
  pkt := sshFxpWrite :: encode 4 2 ++
    (encode 4 4 ++ encode 4 1 ++ encode 8 offset ++ (encode 4 chunk.length ++ chunk))

theorem upload_built_sparse : ∃ file',
    ((writeTo 3 [7, 7]).apply 8 uploading).handles[encode 4 1]? = some (.writeFile file') ∧
      file'.data = build 0 [] ([(3, [7, 7])].flatMap (clip 8)) ∧
      (file'.truncated = false → file'.data = build 0 [] [(3, [7, 7])]) ∧
      file'.size = 0 + ([(3, [7, 7])].map fun w : ℕ × Bytes ↦ w.2.length).sum := by
  have hw : Unrefused 8 uploading startedUpload (3, [7, 7]) :=
    ⟨fun _ ↦ by decide, by rw [InSpace]; decide⟩
  exact upload_built (by decide) getElem?_uploading
    (.write (writeTo 3 [7, 7]) getElem?_uploading (by decide +kernel) hw (.done _))

/-- What is below the cap, and nothing of a chunk that starts at it. -/
def clipBelow (maxUploadBytes : ℕ) (w : ℕ × Bytes) : List (ℕ × Bytes) :=
  if maxUploadBytes ≤ w.1 then [] else [(w.1, w.2.take (maxUploadBytes - w.1))]

/-- An empty chunk at the cap fills the upload with zeros. -/
theorem empty_chunk_at_cap : Unrefused 4 uploading startedUpload (4, []) ∧
    (∃ file', ((writeTo 4 []).apply 4 uploading).handles[encode 4 1]? = some (.writeFile file') ∧
      file'.data = [0, 0, 0, 0]) ∧
    build 0 [] ([(4, [])].flatMap (clipBelow 4)) = [] := by
  refine ⟨⟨fun _ ↦ by decide, by rw [InSpace]; decide⟩, ⟨_, apply_write getElem?_uploading
    (by decide +kernel : writeRequest (writeTo 4 []).pkt = some (encode 4 1, 4, [])), ?_⟩, rfl⟩
  decide +kernel

end Sftp

end Mimic
