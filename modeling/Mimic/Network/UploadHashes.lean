import Mimic.Network.ScpSink
import Mimic.Network.SftpWrites

/-!
# The hashes of an upload

An `upload` event has the hash of the payload, fed while it arrives, and the hash of what is stored.
Over SCP both see the same bytes in the same order. Over SFTP the payload is hashed in the order in
which the chunks arrive, and stored by their offsets, so the two agree when the chunks, one behind
the other, are the file that they build.
-/

namespace Mimic

namespace Sftp

open BigEndian GuardedRun SparseWrite

/-- An upload that was started empty and was given these writes. -/
inductive Uploaded (maxUploadBytes : ℕ) (ws : List (ℕ × Bytes)) : WriteFile → Prop
  | mk {key : Bytes} {s t : SftpSession} {file file' : WriteFile}
    (hkey : s.handles[key]? = some (.writeFile file))
    (hdata : file.data = []) (hhashed : file.hashed = [])
    (h : Writing maxUploadBytes key (InSpace maxUploadBytes) s ws t)
    (hdone : t.handles[key]? = some (.writeFile file')) : Uploaded maxUploadBytes ws file'

section Hashes

variable {maxUploadBytes : ℕ} {ws : List (ℕ × Bytes)} {file : WriteFile}

theorem Uploaded.heard (h : Uploaded maxUploadBytes ws file) (htruncated : file.truncated = false) :
    file.hashed = stream ws ∧ file.data = build 0 [] ws := by
  obtain ⟨hkey, hdata, hhashed, hwriting, hdone⟩ := h
  obtain ⟨file', hfile', hheard⟩ := hwriting.heard (fun _ _ _ h ↦ h) hkey
  obtain rfl := SftpHandle.writeFile.inj (Option.some.inj (hfile'.symm.trans hdone))
  rw [hheard.hashed, (hheard.whole htruncated).2, hhashed, hdata]
  exact ⟨rfl, rfl⟩

/-- Two texts have the same hash under every function only if they are the same. -/
theorem eq_of_hash_eq {bytes bytes' : Bytes}
    (h : ∀ sha256 : Bytes → Bytes, hex (sha256 bytes) = hex (sha256 bytes')) : bytes = bytes' := by
  by_contra hne
  have hhash := h fun b ↦ if b = bytes then [0] else [1]
  rw [if_pos rfl, if_neg (Ne.symm hne)] at hhash
  exact absurd hhash (by decide)

/-- Chunks that arrive in order have the hash of what is stored. -/
theorem Uploaded.hash_of_inOrder (h : Uploaded maxUploadBytes ws file)
    (htruncated : file.truncated = false) (horder : InOrder 0 ws) (ambient : Ambient) :
    (completedUpload ambient file).payloadSha256 = hex (ambient.sha256 file.data) := by
  obtain ⟨hhashed, hdata⟩ := h.heard htruncated
  have hbuild : build 0 [] ws = stream ws := build_of_inOrder horder
  rw [hdata, hbuild, ← hhashed]
  rfl

end Hashes

/-- **The hashes of an upload** that is not marked as truncated. Over SCP they agree, however the
stream is cut. Over SFTP they agree, for every hash function, exactly if the chunks in the order of
their arrival are the file that they build. -/
theorem upload_hashes_iff (maxUploadBytes : ℕ) :
    (∀ (sha256 : Bytes → Bytes) (target : Str) (recursive : Bool) (chunks : List Bytes),
      ∀ file ∈ (Scp.feedAll sha256 (.new target recursive maxUploadBytes) chunks).2,
        file.truncated = false → file.payloadSha256 = hex (sha256 file.data)) ∧
    ∀ (ws : List (ℕ × Bytes)) (file : WriteFile), Uploaded maxUploadBytes ws file →
      file.truncated = false →
      ((∀ ambient, (completedUpload ambient file).payloadSha256 =
          hex (ambient.sha256 (completedUpload ambient file).data)) ↔
        stream ws = build 0 [] ws) := by
  refine ⟨fun sha256 target recursive chunks ↦ Scp.feedAll_hash target recursive _ chunks,
    fun ws file h htruncated ↦ ?_⟩
  obtain ⟨hhashed, hdata⟩ := h.heard htruncated
  rw [← hhashed, ← hdata]
  constructor
  · exact fun hall ↦ eq_of_hash_eq fun sha256 ↦ hall ⟨0, sha256⟩
  · intro heq ambient
    exact congrArg (fun bytes ↦ hex (ambient.sha256 bytes)) heq

/-- The state of the upload after a chunk at offset one and then one at offset zero. -/
def backwards : WriteFile :=
  (received 8 ((writeTo 1 [2]).apply 8 uploading)
    (received 8 uploading startedUpload 1 [2]).1 0 [1]).1

theorem uploaded_backwards : Uploaded 8 [(1, [2]), (0, [1])] backwards := by
  have hfirst : writeRequest (writeTo 1 [2]).pkt = some (encode 4 1, 1, [2]) := by decide +kernel
  have hsecond : writeRequest (writeTo 0 [1]).pkt = some (encode 4 1, 0, [1]) := by decide +kernel
  have hkey := @apply_write 8 _ _ _ _ _ getElem?_uploading hfirst
  refine .mk getElem?_uploading rfl rfl
    (.write (writeTo 1 [2]) getElem?_uploading hfirst (by rw [InSpace]; decide)
      (.write (writeTo 0 [1]) hkey hsecond ?_ (.done _))) (apply_write hkey hsecond)
  rw [InSpace]
  decide +kernel

theorem upload_hashes_iff_backwards :
    (∀ ambient, (completedUpload ambient backwards).payloadSha256 =
        hex (ambient.sha256 (completedUpload ambient backwards).data)) ↔
      stream [(1, ([2] : Bytes)), (0, [1])] = build 0 [] [(1, [2]), (0, [1])] :=
  (upload_hashes_iff 8).2 _ backwards uploaded_backwards (by decide +kernel)

/-- The payload is hashed as it came, and stored the other way round. -/
theorem hash_backwards : Uploaded 8 [(1, [2]), (0, [1])] backwards ∧
    backwards.truncated = false ∧ backwards.data = [1, 2] ∧
    (completedUpload ⟨0, id⟩ backwards).payloadSha256 ≠ hex (id backwards.data) :=
  ⟨uploaded_backwards, by decide +kernel, by decide +kernel, by decide +kernel⟩

end Sftp

end Mimic
