import Mimic.Network.Scp
import Mimic.Network.SftpOutcome
import Mimic.Vfs.View

/-!
# Where uploads land

A connection's uploads are finished in three places: by `CLOSE` of a write handle, by
`into_pending_uploads` when the channel ends, and by `write_to_vfs` for a file received over SCP.
Each writes the file into the session's filesystem with `mkdir_p` and `add_file`, and reports a path
for the `upload` event.

`mkdir_p` takes a path literally, and the path that is reported is later read by `resolve`, which
follows links. The two agree on plain paths, and there every upload of every reachable session is
where it is reported to be, unless a cap refused it (`uploads_land`). Below a link or a file they do
not: the upload is entered nowhere (`upload_below_link_is_lost`), and no path at all leads to it
(`uploads_out_of_sight`).
-/

namespace Mimic

namespace Uploads

open Sftp Wire GuardedRun Vfs

/-! ### Runs of a session -/

/-- What can happen to a session between two uploads. -/
inductive Event
  /-- A packet of the SFTP subsystem. -/
  | packet (ambient : Ambient) (maxUploadBytes : ℕ) (pkt : Bytes)
  /-- A command of the shell: it uses the filesystem, and may change directory and identity. -/
  | command (ops : List Op) (cwd : NodeId) (uid gid : UInt32)
  /-- A file received over SCP. -/
  | scp (now : Timestamp) (target : Str) (recursive : Bool) (file : Scp.CompletedFile)

namespace Event

def apply : Event → Exchange → Exchange
  | packet ambient maxUploadBytes pkt, x => handlePacket ambient maxUploadBytes pkt x
  | command ops cwd uid gid, x => { x with shell := ⟨run Op.apply x.shell.vfs ops, cwd, uid, gid⟩ }
  | scp now target recursive file, x =>
    { x with shell := (Scp.writeToVfs now x.shell target recursive file).1 }

/-- A command passes node ids of the arena. -/
def InRange : Event → Exchange → Prop
  | command ops _ _ _, x => Admissible Op.apply Op.InRange x.shell.vfs ops
  | _, _ => True

end Event

/-- A channel with a new subsystem session and an empty filesystem, which commands then fill. -/
def start (now : Timestamp) (cwd : NodeId) (uid gid : UInt32) : Exchange :=
  ⟨SftpSession.new, ⟨Vfs.new now, cwd, uid, gid⟩, [], []⟩

/-- What holds throughout a session. -/
structure Sound (x : Exchange) : Prop where
  wellFormed : x.shell.vfs.WellFormed
  destined : x.session.Destined

theorem sound_start (now : Timestamp) (cwd : NodeId) (uid gid : UInt32) :
    Sound (start now cwd uid gid) where
  wellFormed := wellFormed_new now
  destined := fun handle file h ↦ by
    rw [show (start now cwd uid gid).session.handles[handle]? = none from
      Std.ExtTreeMap.getElem?_empty] at h
    cases h

theorem wellFormed_run_ops {v : Vfs} {ops : List Op} (hv : v.WellFormed)
    (h : Admissible Op.apply Op.InRange v ops) : (run Op.apply v ops).WellFormed :=
  invariant_run h (fun op _ hop hs ↦ op.wellFormed hop hs) hv

theorem Sound.continues {x y : Exchange} (hx : Sound x) (h : Continues x y) : Sound y := by
  obtain ⟨ops, hops, hvfs⟩ := h.ops hx.wellFormed
  refine ⟨?_, h.dests hx.destined⟩
  rw [hvfs]
  exact wellFormed_run_ops hx.wellFormed hops

/-- A packet continues the exchange. -/
theorem handlePacket_continues (ambient : Ambient) (maxUploadBytes : ℕ) (pkt : Bytes)
    (x : Exchange) : Continues x (handlePacket ambient maxUploadBytes pkt x) := by
  rcases pkt with - | ⟨msgType, cursor⟩
  · exact continues_of_eq rfl rfl
  rw [handlePacket]
  split
  · exact continues_of_eq rfl rfl
  rcases getU32 cursor with - | ⟨id, body⟩
  · exact continues_of_eq rfl rfl
  · exact (handleRequest_serves ambient maxUploadBytes id body x msgType).continues

/-- A file received over SCP is placed at its destination, and reported there. -/
theorem writeToVfs_eq (now : Timestamp) (shell : Shell) (target : Str) (recursive : Bool)
    (file : Scp.CompletedFile) :
    let dest := Scp.destination shell target recursive file
    let placed := shell.vfs.place now dest.1 dest.2 file.data (file.mode &&& 0o7777) shell.uid
      shell.gid
    Scp.writeToVfs now shell target recursive file =
      ({ shell with vfs := placed.1 },
        match placed.2 with
        | some x => placed.1.pathOf x
        | none => Text.trimEndMatches '/' dest.1 ++ '/' :: dest.2) := by
  intro dest placed
  show Scp.writeToVfs now shell target recursive file = _
  rw [Scp.writeToVfs]
  simp only [placed, place]
  rcases (shell.vfs.mkdirP now dest.1 0o755 shell.uid shell.gid).2 with - | parent
  · rfl
  · dsimp only
    split <;> rfl

/-- **One event.** -/
theorem Sound.apply {x : Exchange} (hx : Sound x) (e : Event) (he : e.InRange x) :
    Sound (e.apply x) := by
  cases e with
  | packet ambient maxUploadBytes pkt =>
    exact hx.continues (handlePacket_continues ambient maxUploadBytes pkt x)
  | command ops cwd uid gid => exact ⟨wellFormed_run_ops hx.wellFormed he, hx.destined⟩
  | scp now target recursive file =>
    refine ⟨?_, hx.destined⟩
    show (Scp.writeToVfs now x.shell target recursive file).1.vfs.WellFormed
    rw [writeToVfs_eq]
    obtain ⟨ops, hops, hvfs⟩ := place_ops now (file.mode &&& 0o7777) x.shell.uid x.shell.gid
      hx.wellFormed (Scp.destination x.shell target recursive file).1
      (Scp.destination x.shell target recursive file).2 file.data
    dsimp only
    rw [hvfs]
    exact wellFormed_run_ops hx.wellFormed hops

/-- **Every reachable session is sound.** -/
theorem sound_run (now : Timestamp) (cwd : NodeId) (uid gid : UInt32) {events : List Event}
    (hrun : Admissible Event.apply Event.InRange (start now cwd uid gid) events) :
    Sound (run Event.apply (start now cwd uid gid) events) :=
  invariant_run hrun (fun e _ he hx ↦ hx.apply e he) (sound_start now cwd uid gid)

/-! ### Finishing an upload -/

/-- An upload at the moment it is finished: what is placed where, and what is reported. -/
structure Finish where
  now : Timestamp
  /-- The shell before. -/
  shell : Shell
  dir : Str
  name : Str
  contents : Bytes
  /-- The filesystem right afterwards. -/
  after : Vfs
  /-- The path for the `upload` event. -/
  reported : Str

namespace Finish

/-- The upload goes to an entry name in a plain directory path. -/
def Plain (f : Finish) : Prop := f.shell.vfs.Plain f.dir ∧ IsEntryName f.name

/-- A cap of the filesystem refused the upload. -/
def Refused (f : Finish) : Prop :=
  f.shell.vfs.Refused f.now f.dir f.name f.contents f.shell.uid f.shell.gid

instance (f : Finish) : Decidable f.Refused := inferInstanceAs (Decidable (Vfs.Refused ..))

/-- The reported path leads to the upload. -/
def Landed (f : Finish) : Prop := f.after.Landed f.reported f.contents

end Finish

/-- The ways to finish an upload in the exchange `x`. -/
inductive Finishes (x : Exchange) : Finish → Prop
  /-- `CLOSE` of a write handle. -/
  | close (ambient : Ambient) (maxUploadBytes : ℕ) {cursor body handle extra : Bytes} {id : UInt32}
      {file : WriteFile} :
      getU32 cursor = some (id, body) → getBytes body = some (handle, extra) →
      x.session.handles[handle]? = some (.writeFile file) →
      Finishes x ⟨ambient.now, x.shell, (splitPath file.destPath).1, file.name, file.data,
        (handlePacket ambient maxUploadBytes (sshFxpClose :: cursor) x).shell.vfs, file.destPath⟩
  /-- A write handle met by `into_pending_uploads`, after the handles `pre`. -/
  | pending (ambient : Ambient) {pre post : List SftpHandle} {file : WriteFile} :
      x.session.handles.toList.map Prod.snd = pre ++ .writeFile file :: post →
      file.size > 0 ∨ file.data ≠ [] →
      Finishes x ⟨ambient.now, (pre.foldl (finishPending ambient) (x.shell, [])).1,
        (splitPath file.destPath).1, file.name, file.data,
        (finishPending ambient (pre.foldl (finishPending ambient) (x.shell, []))
          (.writeFile file)).1.vfs, file.destPath⟩
  /-- A file received over SCP. -/
  | scp (now : Timestamp) (target : Str) (recursive : Bool) (file : Scp.CompletedFile) :
      Finishes x ⟨now, x.shell, (Scp.destination x.shell target recursive file).1,
        (Scp.destination x.shell target recursive file).2, file.data,
        (Scp.writeToVfs now x.shell target recursive file).1.vfs,
        (Scp.writeToVfs now x.shell target recursive file).2⟩

/-- `CLOSE` of a write handle places the upload and reports it. -/
theorem handlePacket_close {ambient : Ambient} {maxUploadBytes : ℕ}
    {cursor body handle extra : Bytes} {id : UInt32} {file : WriteFile} {x : Exchange}
    (hid : getU32 cursor = some (id, body)) (hhandle : getBytes body = some (handle, extra))
    (hfile : x.session.handles[handle]? = some (.writeFile file)) :
    (handlePacket ambient maxUploadBytes (sshFxpClose :: cursor) x).shell =
        mirror ambient x.shell file ∧
      (handlePacket ambient maxUploadBytes (sshFxpClose :: cursor) x).completed =
        x.completed ++ [completedUpload ambient file] := by
  have hcall : handlePacket ambient maxUploadBytes (sshFxpClose :: cursor) x =
      handleClose ambient id body x := by
    rw [handlePacket, if_neg (by decide), hid]
    rfl
  rw [hcall, handleClose, hhandle]
  dsimp only
  rw [hfile]
  exact ⟨rfl, rfl⟩

/-- `into_pending_uploads` finishes the write handles in turn: `Finishes.pending` is its state right
after the one that follows `pre`. -/
theorem intoPendingUploads_eq {ambient : Ambient} {s : SftpSession} {shell : Shell}
    {pre post : List SftpHandle} {file : WriteFile}
    (h : s.handles.toList.map Prod.snd = pre ++ .writeFile file :: post)
    (hbytes : file.size > 0 ∨ file.data ≠ []) :
    intoPendingUploads ambient s shell =
      post.foldl (finishPending ambient)
        (mirror ambient (pre.foldl (finishPending ambient) (shell, [])).1 file,
          (pre.foldl (finishPending ambient) (shell, [])).2 ++ [completedUpload ambient file]) := by
  rw [intoPendingUploads, h, List.foldl_append, List.foldl_cons]
  congr 1
  exact if_pos hbytes

/-- The filesystem stays well formed while handles are finalized. -/
theorem wellFormed_finishPending {ambient : Ambient} {shell : Shell} {handles : List SftpHandle}
    {done : List CompletedUpload} (hv : shell.vfs.WellFormed) :
    (handles.foldl (finishPending ambient) (shell, done)).1.vfs.WellFormed := by
  induction handles generalizing shell done with
  | nil => exact hv
  | cons handle handles ih =>
    rw [List.foldl_cons]
    rcases handle with ⟨entries, offset⟩ | ⟨data, metadata⟩ | file
    · exact ih hv
    · exact ih hv
    · rw [finishPending]
      dsimp only
      split
      · obtain ⟨ops, hops, hvfs⟩ := mirror_ops ambient file hv
        refine ih ?_
        rw [hvfs]
        exact wellFormed_run_ops hv hops
      · exact ih hv

/-- A destined upload to a plain directory lands at its destination. -/
theorem mirror_landed {ambient : Ambient} {shell : Shell} {file : WriteFile}
    (hv : shell.vfs.WellFormed) (hfile : file.Destined)
    (hplain : shell.vfs.Plain (splitPath file.destPath).1)
    (hroom : ¬ shell.vfs.Refused ambient.now (splitPath file.destPath).1 file.name file.data
      shell.uid shell.gid) : (mirror ambient shell file).vfs.Landed file.destPath file.data := by
  obtain ⟨x, -, hplaced⟩ := place_of_plain ambient.now file.mode shell.uid shell.gid hv hplain hroom
  rw [mirror_vfs]
  refine hplaced.landed hfile.comps ?_
  rw [← hfile.comps]
  exact hfile.up

/-- A file received over SCP for an entry name in a plain directory lands where it is reported. -/
theorem writeToVfs_landed {now : Timestamp} {shell : Shell} {target : Str} {recursive : Bool}
    {file : Scp.CompletedFile} (hv : shell.vfs.WellFormed)
    (hplain : shell.vfs.Plain (Scp.destination shell target recursive file).1)
    (hname : IsEntryName (Scp.destination shell target recursive file).2)
    (hroom : ¬ shell.vfs.Refused now (Scp.destination shell target recursive file).1
      (Scp.destination shell target recursive file).2 file.data shell.uid shell.gid) :
    (Scp.writeToVfs now shell target recursive file).1.vfs.Landed
      (Scp.writeToVfs now shell target recursive file).2 file.data := by
  obtain ⟨x, hx, hplaced⟩ :=
    place_of_plain now (file.mode &&& 0o7777) shell.uid shell.gid hv hplain hroom
  rw [writeToVfs_eq, hx]
  refine hplaced.landed_pathOf fun name hmem ↦ ?_
  rcases List.mem_append.1 hmem with hmem | hmem
  · obtain ⟨pre, missing, last, hsplit, -, hup⟩ := hplain
    refine ⟨(counts_of_mem_significant hmem).isName ?_,
      slash_not_mem_of_mem_splitSlash (List.mem_of_mem_filter hmem)⟩
    rintro rfl
    rw [hsplit.comps] at hmem
    exact hup hmem
  · exact List.mem_singleton.1 hmem ▸ hname

/-- **Uploads land where they are reported.** In every reachable session, every upload to an entry
name in a plain directory path is, right after it is finished, the file its reported path leads to,
unless a cap refused it. -/
theorem uploads_land (now : Timestamp) (cwd : NodeId) (uid gid : UInt32) {events : List Event}
    {f : Finish} (hrun : Admissible Event.apply Event.InRange (start now cwd uid gid) events)
    (hfinish : Finishes (run Event.apply (start now cwd uid gid) events) f) (hplain : f.Plain) :
    f.Landed ∨ f.Refused := by
  -- the invariant holds whatever happened before; only this step needs a plain path
  have hsound := sound_run now cwd uid gid hrun
  by_cases hroom : f.Refused
  · exact .inr hroom
  refine .inl ?_
  cases hfinish with
  | @close ambient maxUploadBytes cursor body handle extra id file hid hhandle hfile =>
    rw [Finish.Landed]
    dsimp only
    rw [(handlePacket_close hid hhandle hfile).1]
    exact mirror_landed hsound.wellFormed (hsound.destined _ _ hfile) hplain.1 hroom
  | @pending ambient pre post file hhandles hbytes =>
    have hmem : SftpHandle.writeFile file ∈
        (run Event.apply (start now cwd uid gid) events).session.handles.toList.map Prod.snd := by
      rw [hhandles]
      exact List.mem_append_right _ List.mem_cons_self
    obtain ⟨⟨handle, _⟩, hentry, rfl⟩ := List.mem_map.1 hmem
    rw [Std.ExtTreeMap.mem_toList_iff_getElem?_eq_some] at hentry
    rw [Finish.Landed]
    dsimp only
    rw [finishPending, if_pos hbytes]
    exact mirror_landed (wellFormed_finishPending hsound.wellFormed) (hsound.destined _ _ hentry)
      hplain.1 hroom
  | scp => exact writeToVfs_landed hsound.wellFormed hplain.1 hplain.2 hroom

/-- However an upload is finished, `place` is what it does to the filesystem. -/
theorem Finishes.after_eq {x : Exchange} {f : Finish} (hx : Sound x) (h : Finishes x f) :
    f.shell.vfs.WellFormed ∧ ∃ perms, f.after =
      (f.shell.vfs.place f.now f.dir f.name f.contents perms f.shell.uid f.shell.gid).1 := by
  cases h with
  | @close ambient _ _ _ _ _ _ file hid hhandle hfile =>
    refine ⟨hx.wellFormed, file.mode, ?_⟩
    dsimp only
    rw [(handlePacket_close hid hhandle hfile).1, mirror_vfs]
  | @pending ambient _ _ file _ hbytes =>
    refine ⟨wellFormed_finishPending hx.wellFormed, file.mode, ?_⟩
    dsimp only
    rw [finishPending, if_pos hbytes, mirror_vfs]
  | scp now target recursive file =>
    refine ⟨hx.wellFormed, file.mode &&& 0o7777, ?_⟩
    dsimp only
    rw [writeToVfs_eq]

/-- **Other uploads are found nowhere.** In every reachable session, an upload that is not to an
entry name in a plain directory path, and that no cap refused, puts no file under any path: what is
found afterwards was there as soon as `mkdir_p` had made the directories. -/
theorem uploads_out_of_sight (now : Timestamp) (cwd : NodeId) (uid gid : UInt32)
    {events : List Event} {f : Finish}
    (hrun : Admissible Event.apply Event.InRange (start now cwd uid gid) events)
    (hfinish : Finishes (run Event.apply (start now cwd uid gid) events) f) (hplain : ¬ f.Plain)
    (hroom : ¬ f.Refused) (path : Str) (contents : Bytes) :
    f.after.Landed path contents ↔
      (f.shell.vfs.mkdirP f.now f.dir 0o755 f.shell.uid f.shell.gid).1.Landed path contents := by
  obtain ⟨hv, perms, hafter⟩ := hfinish.after_eq (sound_run now cwd uid gid hrun)
  have hmade := mkdirP_wellFormed f.now 0o755 f.shell.uid f.shell.gid f.dir hv
  obtain ⟨ops, hops, hplace⟩ := place_ops f.now perms f.shell.uid f.shell.gid hv f.dir f.name
    f.contents
  have hdone := wellFormed_run_ops hv hops
  rw [← hplace] at hdone
  rw [hafter]
  exact (sameView_place f.now perms f.shell.uid f.shell.gid hv hplain hroom).landed_iff hmade hdone

/-- After the operations `ops`, an upload of two bytes to a path in progress, under the first
handle. -/
def uploading (ops : List Op) (path : Bytes) : List Event :=
  [.command ops 0 0 0,
    .packet ⟨0, fun _ ↦ []⟩ 1024 (sshFxpOpen :: BigEndian.encode 4 1 ++
      (BigEndian.encode 4 path.length ++ path ++ BigEndian.encode 4 sshFxfWrite.toNat)),
    .packet ⟨0, fun _ ↦ []⟩ 1024 (sshFxpWrite :: BigEndian.encode 4 2 ++
      (BigEndian.encode 4 4 ++ BigEndian.encode 4 1 ++ BigEndian.encode 8 0 ++
        (BigEndian.encode 4 2 ++ [7, 7])))]

/-- `CLOSE` of the first handle, as request 3. -/
def closeCursor : Bytes :=
  BigEndian.encode 4 3 ++ (BigEndian.encode 4 4 ++ BigEndian.encode 4 1)

/-- The upload to `path` that `CLOSE` of the first handle finishes. -/
def closing (x : Exchange) (path : Str) : Finish :=
  ⟨0, x.shell, (splitPath path).1, (splitPath path).2, [7, 7],
    (handlePacket ⟨0, fun _ ↦ []⟩ 1024 (sshFxpClose :: closeCursor) x).shell.vfs, path⟩

theorem finishes_closing {x : Exchange} {path : Str} (hashed : Bytes)
    (h : x.session.handles[([0, 0, 0, 1] : Bytes)]? =
      some (.writeFile ⟨path, (splitPath path).2, [7, 7], 2, hashed, 0o644, false⟩)) :
    Finishes x (closing x path) := by
  have hid : getU32 closeCursor = some (3, BigEndian.encode 4 4 ++ BigEndian.encode 4 1) := by
    decide
  have hhandle : getBytes (BigEndian.encode 4 4 ++ BigEndian.encode 4 1) =
      some ([0, 0, 0, 1], []) := by decide
  exact Finishes.close ⟨0, fun _ ↦ []⟩ 1024 hid hhandle h

/-- A session that uploads to `/tmp/x`. -/
def uploadingTmp : List Event :=
  uploading [.mkdirP 0 "/tmp".toList 0o755 0 0] [47, 116, 109, 112, 47, 120]

/-- The upload to `/tmp/x`, when it is closed. -/
def closingTmp : Finish :=
  closing (run Event.apply (start 0 0 0 0) uploadingTmp) ['/', 't', 'm', 'p', '/', 'x']

theorem uploads_land_tmp :
    (closingTmp.Landed ∨ closingTmp.Refused) ∧ ¬ closingTmp.Refused := by
  have hrun : Admissible Event.apply Event.InRange (start 0 0 0 0) uploadingTmp :=
    ⟨show Admissible Op.apply Op.InRange _ _ by decide +kernel, trivial, trivial, trivial⟩
  refine ⟨uploads_land 0 0 0 0 hrun (finishes_closing [7, 7] rfl) ?_, by decide +kernel⟩
  exact ⟨⟨["tmp".toList], [], 1, ⟨by decide, by decide +kernel, by simp⟩, by decide +kernel,
    by decide⟩, by decide, by decide⟩

/-! ### Below a link -/

/-- A session that uploads to `/bin/x`, where `/bin` is a link to `usr/bin`. -/
def uploadingBin : List Event :=
  uploading [.mkdirP 0 "/usr/bin".toList 0o755 0 0,
    .mutator (.addSymlink 0 0 "bin".toList "usr/bin".toList)] [47, 98, 105, 110, 47, 120]

/-- The upload to `/bin/x`, when it is closed. -/
def closingBin : Finish :=
  closing (run Event.apply (start 0 0 0 0) uploadingBin) ['/', 'b', 'i', 'n', '/', 'x']

/-- The upload to `/bin/x` is refused by no cap, and yet nothing is at `/bin/x` afterwards:
`mkdir_p` returns the link itself, and what is added below a link has no entry. -/
theorem upload_below_link_is_lost :
    Admissible Event.apply Event.InRange (start 0 0 0 0) uploadingBin ∧
    Finishes (run Event.apply (start 0 0 0 0) uploadingBin) closingBin ∧
    ¬ (closingBin.Landed ∨ closingBin.Refused) := by
  refine ⟨⟨show Admissible Op.apply Op.InRange _ _ by decide +kernel, trivial, trivial, trivial⟩,
    finishes_closing [7, 7] rfl, ?_⟩
  rintro (hlanded | hrefused)
  · exact not_landed_of_resolve_eq_none (by decide +kernel) hlanded
  · exact absurd hrefused (by decide +kernel)

end Uploads

end Mimic
