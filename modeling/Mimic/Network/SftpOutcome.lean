import Mimic.Network.Sftp
import Mimic.Vfs.Placement

/-!
# What a request does

The one place that goes through the branches of the request handlers. Everything about runs of a
session is derived from `handleRequest_serves`, which says three things of every request.

* It is answered by exactly one frame, which repeats its id (`Replies`).
* It changes the filesystem by operations of the filesystem's interface, with node ids that are in
  range, and by nothing else (`Continues.ops`). So what every such operation preserves holds
  throughout a session.
* It keeps the destinations of the uploads in progress: normalized paths, whose last component is
  the name of the upload (`Destined`).
-/

namespace Mimic

namespace Sftp

open Wire BigEndian GuardedRun Vfs

/-! ### Normalized paths -/

theorem pushComp_isEntryName {parts : List Str} {comp : Str}
    (h : ∀ name ∈ parts, IsEntryName name) (hcomp : '/' ∉ comp) :
    ∀ name ∈ pushComp parts comp, IsEntryName name := by
  rw [pushComp]
  split
  · exact h
  rename_i hskip
  split
  · exact fun name hname ↦ h name (List.mem_of_mem_dropLast hname)
  rename_i hup
  intro name hname
  rcases List.mem_append.1 hname with hname | hname
  · exact h name hname
  · obtain rfl := List.mem_singleton.1 hname
    exact ⟨Counts.isName hskip hup, hcomp⟩

theorem foldl_pushComp_isEntryName {comps parts : List Str} (hcomps : ∀ comp ∈ comps, '/' ∉ comp)
    (h : ∀ name ∈ parts, IsEntryName name) :
    ∀ name ∈ comps.foldl pushComp parts, IsEntryName name := by
  induction comps generalizing parts with
  | nil => exact h
  | cons comp comps ih =>
    obtain ⟨hcomp, hcomps⟩ := List.forall_mem_cons.1 hcomps
    exact ih hcomps (pushComp_isEntryName h hcomp)

/-- **A normalized path is put together from entry names.** -/
theorem normalizePath_eq (cwd path : Str) : ∃ names : List Str,
    (∀ name ∈ names, IsEntryName name) ∧ normalizePath cwd path = '/' :: joinSlash names :=
  ⟨_, foldl_pushComp_isEntryName (fun _ ↦ slash_not_mem_of_mem_splitSlash)
    (fun _ h ↦ absurd h List.not_mem_nil), rfl⟩

/-- The destination of an upload: its name is the last component of its path, and no component is
`..`. -/
structure WriteFile.Destined (file : WriteFile) : Prop where
  comps : significant (splitSlash file.destPath) =
    significant (splitSlash (splitPath file.destPath).1) ++ [file.name]
  up : ['.', '.'] ∉ significant (splitSlash file.destPath)

/-- An upload to a normalized path that names something is destined. -/
theorem destined_of_normalizePath {file : WriteFile} {cwd path : Str}
    (hpath : file.destPath = normalizePath cwd path)
    (hname : file.name = (splitPath (normalizePath cwd path)).2) (hne : file.name ≠ []) :
    file.Destined := by
  obtain ⟨names, hnames, habs⟩ := normalizePath_eq cwd path
  rw [habs] at hpath hname
  have hslash : ∀ name ∈ names, '/' ∉ name := fun name h ↦ (hnames name h).2
  have hsig : significant (splitSlash file.destPath) = names := by
    rw [hpath, significant_slash_joinSlash hslash,
      significant_eq_self fun name h ↦ (hnames name h).1]
  -- what follows the last slash is a component, and no empty one
  have hmem : file.name ∈ names := by
    rw [splitPath_snd hslash] at hname
    rcases List.eq_nil_or_concat names with rfl | ⟨init, last, rfl⟩
    · exact absurd hname hne
    · rw [List.concat_eq_append, List.getLastD_concat] at hname
      rw [hname, List.concat_eq_append]
      exact List.mem_append_right _ (List.mem_singleton_self _)
  have hself : significant [file.name] = [file.name] :=
    significant_eq_self fun name h ↦ List.mem_singleton.1 h ▸ (hnames _ hmem).1
  refine ⟨?_, fun hup ↦ ?_⟩
  · rw [hpath, significant_splitPath List.mem_cons_self, ← hname, hself]
  · rw [hsig] at hup
    exact (hnames _ hup).1.2.2 rfl

/-! ### Steps of an exchange -/

/-- The uploads in progress are destined. -/
def SftpSession.Destined (s : SftpSession) : Prop :=
  ∀ (handle : Bytes) (file : WriteFile), s.handles[handle]? = some (.writeFile file) → file.Destined

/-- `y` is `x` with one more frame in the output, a response to the request `id`. -/
def Replies (id : UInt32) (x y : Exchange) : Prop :=
  ∃ pktType body, pktType ≠ sshFxpVersion ∧
    y.out = x.out ++ frame pktType (encode 4 id.toNat ++ body)

/-- `y` comes from `x` by filesystem operations, and its uploads stay destined. -/
structure Continues (x y : Exchange) : Prop where
  ops : x.shell.vfs.WellFormed → ∃ ops, Admissible Op.apply Op.InRange x.shell.vfs ops ∧
    y.shell.vfs = run Op.apply x.shell.vfs ops
  dests : x.session.Destined → y.session.Destined

/-- `y` is what the request `id` makes of `x`. -/
structure Serves (id : UInt32) (x y : Exchange) : Prop where
  replies : Replies id x y
  continues : Continues x y

variable {id : UInt32} {x x' y : Exchange}

section Continues

theorem continues_of_eq (hvfs : y.shell.vfs = x.shell.vfs)
    (hhandles : y.session.handles = x.session.handles) : Continues x y where
  ops _ := ⟨[], trivial, hvfs⟩
  dests h := by rwa [SftpSession.Destined, hhandles]

/-- Operations with ids of the arena are admissible one after the other. -/
theorem admissible_of_ids {v : Vfs} (hv : v.WellFormed) {ops : List Op}
    (h : ∀ op ∈ ops, op.InRange v) : Admissible Op.apply Op.InRange v ops := by
  induction ops generalizing v with
  | nil => trivial
  | cons op ops ih =>
    obtain ⟨hop, hops⟩ := List.forall_mem_cons.1 h
    have hle : v.nodes.length ≤ (op.apply v).nodes.length := by
      rw [op.apply_eq_run]
      exact length_le_run_calls (op.admissible_calls hop hv)
    exact ⟨hop, ih (op.wellFormed hop hv) fun op' h' id hid ↦ (hops op' h' id hid).trans_le hle⟩

theorem continues_run (ops : List Op)
    (hin : x.shell.vfs.WellFormed → ∀ op ∈ ops, op.InRange x.shell.vfs) :
    Continues x (x.setVfs (run Op.apply x.shell.vfs ops)) where
  ops hv := ⟨ops, admissible_of_ids hv (hin hv), rfl⟩
  dests h := h

/-- One mutator. -/
theorem continues_mutator (m : Mutator)
    (hin : x.shell.vfs.WellFormed → ∀ id ∈ m.ids, id < x.shell.vfs.nodes.length) :
    Continues x (x.setVfs (m.apply x.shell.vfs)) :=
  continues_run [.mutator m] fun hv ↦ List.forall_mem_singleton.2 (hin hv)

/-- Another handle, or another state of a handle. -/
theorem continues_insert {handle : Bytes} {h : SftpHandle} (hvfs : y.shell.vfs = x.shell.vfs)
    (hhandles : y.session.handles = x.session.handles.insert handle h)
    (hdest : x.session.Destined → ∀ file, h = .writeFile file → file.Destined) :
    Continues x y where
  ops _ := ⟨[], trivial, hvfs⟩
  dests hx := by
    intro handle' file hfile
    rw [hhandles, Std.ExtTreeMap.getElem?_insert] at hfile
    split at hfile
    · exact hdest hx file (Option.some.inj hfile)
    · exact hx handle' file hfile

theorem SftpSession.Destined.erase {s s' : SftpSession} {handle : Bytes} (h : s.Destined)
    (hhandles : s'.handles = s.handles.erase handle) : s'.Destined := by
  intro handle' file hfile
  rw [hhandles, Std.ExtTreeMap.getElem?_erase] at hfile
  split at hfile
  · cases hfile
  · exact h handle' file hfile

/-- An absolute path of a request leads to a node of the arena. -/
theorem resolve_absolute_lt {path : Str} {node : NodeId} (hv : x.shell.vfs.WellFormed)
    (h : x.resolve (x.absolute path) = some node) : node < x.shell.vfs.nodes.length :=
  resolve_lt hv rfl h

theorem resolve_parent_lt {path : Str} {node : NodeId} (hv : x.shell.vfs.WellFormed)
    (h : x.resolve (splitPath (x.absolute path)).1 = some node) :
    node < x.shell.vfs.nodes.length :=
  resolve_lt hv (head?_splitPath rfl) h

/-- The operations of a `SETSTAT`. -/
def attrOps (node : NodeId) (attrs : ParsedAttrs) : List Op :=
  (attrs.permissions.map fun perms ↦ Op.mutator (.chmod node perms)).toList ++
    (attrs.uidGid.map fun o ↦ Op.mutator (.chown node o.1 o.2)).toList ++
    (attrs.acmodtime.map fun t ↦ Op.mutator (.setMtime node t.2.toNat)).toList

theorem applyAttrs_eq_run (v : Vfs) (node : NodeId) (attrs : ParsedAttrs) :
    applyAttrs v node attrs = run Op.apply v (attrOps node attrs) := by
  rcases attrs with ⟨- | perms, - | ⟨uid, gid⟩, - | ⟨atime, mtime⟩⟩ <;> rfl

theorem continues_applyAttrs {node : NodeId} {attrs : ParsedAttrs}
    (hnode : x.shell.vfs.WellFormed → node < x.shell.vfs.nodes.length) :
    Continues x (x.setVfs (applyAttrs x.shell.vfs node attrs)) := by
  rw [applyAttrs_eq_run]
  refine continues_run _ fun hv op hop ↦ ?_
  have hids : op.ids = [node] := by
    simp only [attrOps, List.mem_append, Option.mem_toList, Option.map_eq_some_iff] at hop
    rcases hop with (⟨_, -, rfl⟩ | ⟨_, -, rfl⟩) | ⟨_, -, rfl⟩ <;> rfl
  rw [Op.InRange, hids]
  exact List.forall_mem_singleton.2 (hnode hv)

/-- A finished upload is placed at its destination. -/
theorem mirror_vfs (ambient : Ambient) (shell : Shell) (file : WriteFile) :
    (mirror ambient shell file).vfs =
      (shell.vfs.place ambient.now (splitPath file.destPath).1 file.name file.data file.mode
        shell.uid shell.gid).1 := by
  rw [mirror, place]
  dsimp only
  rcases (shell.vfs.mkdirP ambient.now (splitPath file.destPath).1 0o755 shell.uid shell.gid).2
    with - | parent <;> rfl

theorem mirror_ops (ambient : Ambient) {shell : Shell} (file : WriteFile)
    (hv : shell.vfs.WellFormed) : ∃ ops, Admissible Op.apply Op.InRange shell.vfs ops ∧
      (mirror ambient shell file).vfs = run Op.apply shell.vfs ops := by
  rw [mirror_vfs]
  exact place_ops _ _ _ _ hv _ _ _

theorem WriteFile.Destined.of_eq {file file' : WriteFile} (h : file.Destined)
    (hpath : file'.destPath = file.destPath) (hname : file'.name = file.name) : file'.Destined := by
  refine ⟨?_, ?_⟩
  · rw [hpath, hname]
    exact h.comps
  · rw [hpath]
    exact h.up

theorem storeChunk_destPath (maxUploadBytes budgetLeft : ℕ) (file : WriteFile) (rawOffset : ℕ)
    (chunk : Bytes) :
    (storeChunk maxUploadBytes budgetLeft file rawOffset chunk).1.destPath = file.destPath := by
  rw [storeChunk]
  dsimp only
  repeat' split
  all_goals rfl

theorem storeChunk_name (maxUploadBytes budgetLeft : ℕ) (file : WriteFile) (rawOffset : ℕ)
    (chunk : Bytes) :
    (storeChunk maxUploadBytes budgetLeft file rawOffset chunk).1.name = file.name := by
  rw [storeChunk]
  dsimp only
  repeat' split
  all_goals rfl

end Continues

/-! ### Responses -/

section Replies

theorem replies_sendPacket (pktType : UInt8) {g : Bytes → Bytes} {body : Bytes}
    (htype : pktType ≠ sshFxpVersion) (hg : Appends g body)
    (hy : y.out = sendPacket x.out pktType fun p ↦ g (putU32 p id)) : Replies id x y := by
  refine ⟨pktType, body, htype, ?_⟩
  rw [hy, sendPacket_eq ((appends_putU32 id).comp hg)]

theorem replies_status {code : UInt32} {msg : String} (hx : x'.out = x.out) :
    Replies id x (x'.status id code msg) := by
  refine replies_sendPacket sshFxpStatus (by decide)
    ((appends_putU32 code).comp ((appends_putBytes (Text.toUtf8 msg.toList)).comp
      (appends_putBytes (Text.toUtf8 [])))) ?_
  show putStatus x'.out id code msg.toList = _
  rw [hx]
  rfl

theorem replies_openHandle {handle : SftpHandle} (hx : x'.out = x.out) :
    Replies id x (x'.openHandle id handle) := by
  refine replies_sendPacket sshFxpHandle (by decide) (appends_putBytes x'.session.handleBytes) ?_
  show putHandle x'.out id x'.session.handleBytes = _
  rw [hx]
  rfl

theorem replies_putData {data : Bytes} (hy : y.out = putData x.out id data) : Replies id x y :=
  replies_sendPacket sshFxpData (by decide) (appends_putBytes data) hy

theorem replies_putAttrsPkt {metadata : Metadata} {size : ℕ}
    (hy : y.out = putAttrsPkt x.out id metadata size) : Replies id x y := by
  obtain ⟨body, hbody⟩ := appends_putAttrs metadata size
  exact replies_sendPacket sshFxpAttrs (by decide) hbody hy

theorem replies_putNamePkt {entries : List NameEntry} (hy : y.out = putNamePkt x.out id entries) :
    Replies id x y := by
  obtain ⟨body, hbody⟩ := appends_foldl_putNameEntry entries
  exact replies_sendPacket sshFxpName (by decide) ((appends_putU32 _).comp hbody) hy

/-- A status after a step that leaves the output alone. -/
theorem serves_status {code : UInt32} {msg : String} (h : Continues x x') (hout : x'.out = x.out) :
    Serves id x (x'.status id code msg) :=
  ⟨replies_status hout, h.ops, h.dests⟩

/-- A status and nothing else. -/
theorem serves_refusal {code : UInt32} {msg : String} : Serves id x (x.status id code msg) :=
  serves_status (continues_of_eq rfl rfl) rfl

/-- A new handle after a step that leaves the output alone. -/
theorem serves_openHandle {handle : SftpHandle} (h : Continues x x') (hout : x'.out = x.out)
    (hdest : ∀ file, handle = .writeFile file → file.Destined) :
    Serves id x (x'.openHandle id handle) := by
  refine ⟨replies_openHandle hout, h.ops, fun hx ↦ ?_⟩
  exact (continues_insert (x := x') (y := x'.openHandle id handle) rfl rfl fun _ ↦ hdest).dests
    (h.dests hx)

theorem serves_ite {p : Prop} [Decidable p] {z : Exchange} (hy : Serves id x y)
    (hz : Serves id x z) : Serves id x (if p then y else z) :=
  iteInduction (fun _ ↦ hy) fun _ ↦ hz

end Replies

/-! ### The handlers -/

section Handlers

variable (ambient : Ambient) (maxUploadBytes : ℕ) (id : UInt32) (cursor : Bytes) (x : Exchange)

theorem handleRealpath_serves : Serves id x (handleRealpath id cursor x) := by
  rw [handleRealpath]
  split
  · exact serves_refusal
  · exact ⟨replies_putNamePkt rfl, continues_of_eq rfl rfl⟩

theorem handleStat_serves : Serves id x (handleStat ambient id cursor x) := by
  rw [handleStat]
  split
  · exact serves_refusal
  split
  · exact ⟨replies_putAttrsPkt rfl, continues_of_eq rfl rfl⟩
  · exact serves_refusal

theorem handleLstat_serves : Serves id x (handleLstat ambient id cursor x) := by
  rw [handleLstat]
  split
  · exact serves_refusal
  dsimp only
  split
  · exact ⟨replies_putAttrsPkt rfl, continues_of_eq rfl rfl⟩
  split
  · exact ⟨replies_putAttrsPkt rfl, continues_of_eq rfl rfl⟩
  · exact serves_refusal

theorem handleOpendir_serves : Serves id x (handleOpendir ambient id cursor x) := by
  rw [handleOpendir]
  split
  · exact serves_refusal
  split
  · split
    · split
      · exact serves_refusal
      · exact serves_openHandle (continues_of_eq rfl rfl) rfl fun _ h ↦ SftpHandle.noConfusion h
    · exact serves_refusal
  · exact serves_refusal

theorem handleOpen_serves : Serves id x (handleOpen ambient maxUploadBytes id cursor x) := by
  rw [handleOpen]
  split
  · exact serves_refusal
  split
  · exact serves_refusal
  dsimp only
  -- the name, the number of handles and the flags are checked in this order
  split
  · exact serves_refusal
  rename_i hname
  split
  · exact serves_refusal
  split
  · refine serves_openHandle (continues_of_eq rfl rfl) rfl fun file hfile ↦ ?_
    obtain rfl := SftpHandle.writeFile.inj hfile
    exact destined_of_normalizePath rfl rfl hname
  split
  · split
    · split
      · split
        · exact serves_refusal
        · exact serves_openHandle (continues_of_eq rfl rfl) rfl fun _ h ↦ SftpHandle.noConfusion h
      · exact serves_refusal
    · exact serves_refusal
  · exact serves_refusal

theorem handleSetstat_serves : Serves id x (handleSetstat id cursor x) := by
  rw [handleSetstat]
  split
  · exact serves_refusal
  split
  · rename_i node hnode
    split
    · exact serves_status (continues_applyAttrs fun hv ↦ resolve_absolute_lt hv hnode) rfl
    · exact serves_refusal
  · exact serves_refusal

theorem handleRemove_serves : Serves id x (handleRemove id cursor x) := by
  rw [handleRemove]
  split
  · exact serves_refusal
  dsimp only
  split
  · exact serves_refusal
  split
  · rename_i parent hparent
    have hunlink := fun name ↦ continues_mutator (.unlink parent name) fun hv ↦
      List.forall_mem_singleton.2 (resolve_parent_lt hv hparent)
    split
    · exact serves_status (hunlink _) rfl
    · exact serves_status (hunlink _) rfl
  · exact serves_refusal

theorem handleMkdir_serves : Serves id x (handleMkdir ambient id cursor x) := by
  rw [handleMkdir]
  split
  · exact serves_refusal
  dsimp only
  split
  · exact serves_refusal
  split
  · rename_i parent hparent
    exact serves_status (continues_mutator (.mkdir _ parent _ _ _ _) fun hv ↦
      List.forall_mem_singleton.2 (resolve_parent_lt hv hparent)) rfl
  · exact serves_refusal

theorem handleRmdir_serves : Serves id x (handleRmdir id cursor x) := by
  rw [handleRmdir]
  split
  · exact serves_refusal
  dsimp only
  split
  · exact serves_refusal
  split
  · rename_i parent hparent
    split
    · split
      · split
        · exact serves_status (continues_mutator (.unlink parent _) fun hv ↦
            List.forall_mem_singleton.2 (resolve_parent_lt hv hparent)) rfl
        · exact serves_refusal
      · exact serves_refusal
    · exact serves_refusal
  · exact serves_refusal

theorem handleRename_serves : Serves id x (handleRename id cursor x) := by
  rw [handleRename]
  split
  · exact serves_refusal
  split
  · exact serves_refusal
  dsimp only
  split
  · exact serves_refusal
  split
  · rename_i old newParent hold hnew
    have hrename := fun name ↦ continues_mutator (.rename old newParent name) fun hv ↦
      List.forall_mem_cons.2 ⟨resolve_absolute_lt hv hold,
        List.forall_mem_singleton.2 (resolve_parent_lt hv hnew)⟩
    split
    · exact serves_status (hrename _) rfl
    · exact serves_status (hrename _) rfl
  · exact serves_refusal

theorem handleReadlink_serves : Serves id x (handleReadlink id cursor x) := by
  rw [handleReadlink]
  split
  · exact serves_refusal
  dsimp only
  split
  · exact serves_refusal
  split
  · split
    · exact ⟨replies_putNamePkt rfl, continues_of_eq rfl rfl⟩
    · exact serves_refusal
  · exact serves_refusal

theorem handleSymlink_serves : Serves id x (handleSymlink ambient id cursor x) := by
  rw [handleSymlink]
  split
  · exact serves_refusal
  split
  · exact serves_refusal
  dsimp only
  split
  · exact serves_refusal
  split
  · rename_i parent hparent
    exact serves_status (continues_mutator (.addSymlink _ parent _ _) fun hv ↦
      List.forall_mem_singleton.2 (resolve_parent_lt hv hparent)) rfl
  · exact serves_refusal

theorem handleReaddir_serves : Serves id x (handleReaddir id cursor x) := by
  rw [handleReaddir]
  split
  · exact serves_refusal
  split
  · split
    · exact serves_refusal
    · exact ⟨replies_putNamePkt rfl,
        continues_insert rfl rfl fun _ _ h ↦ SftpHandle.noConfusion h⟩
  · exact serves_refusal

theorem handleRead_serves : Serves id x (handleRead id cursor x) := by
  rw [handleRead]
  split
  · exact serves_refusal
  split
  · exact serves_refusal
  split
  · exact serves_refusal
  split
  · dsimp only
    split
    · exact serves_refusal
    · exact ⟨replies_putData rfl, continues_of_eq rfl rfl⟩
  · exact serves_refusal

theorem handleWrite_serves : Serves id x (handleWrite maxUploadBytes id cursor x) := by
  rw [handleWrite]
  split
  · exact serves_refusal
  split
  · exact serves_refusal
  split
  · exact serves_refusal
  dsimp only
  split
  · rename_i file hfile
    refine serves_status (continues_insert rfl rfl fun hx file' hfile' ↦ ?_) rfl
    obtain rfl := SftpHandle.writeFile.inj hfile'
    exact (hx _ file hfile).of_eq (storeChunk_destPath ..) (storeChunk_name ..)
  · exact serves_refusal

theorem handleClose_serves : Serves id x (handleClose ambient id cursor x) := by
  rw [handleClose]
  split
  · exact serves_refusal
  split
  · dsimp only
    split
    · exact serves_status ⟨fun hv ↦ mirror_ops ambient _ hv, fun hx ↦ hx.erase rfl⟩ rfl
    · exact serves_status ⟨fun _ ↦ ⟨[], trivial, rfl⟩, fun hx ↦ hx.erase rfl⟩ rfl
  · exact serves_refusal

theorem handleFstat_serves : Serves id x (handleFstat ambient id cursor x) := by
  rw [handleFstat]
  split
  · exact serves_refusal
  split
  · exact ⟨replies_putAttrsPkt rfl, continues_of_eq rfl rfl⟩
  · exact ⟨replies_putAttrsPkt rfl, continues_of_eq rfl rfl⟩
  · exact ⟨replies_putAttrsPkt rfl, continues_of_eq rfl rfl⟩
  · exact serves_refusal

theorem handleFsetstat_serves : Serves id x (handleFsetstat id cursor x) := by
  rw [handleFsetstat]
  split
  · exact serves_refusal
  dsimp only
  split
  · rename_i file hfile
    refine serves_status (continues_insert rfl rfl fun hx file' hfile' ↦ ?_) rfl
    obtain rfl := SftpHandle.writeFile.inj hfile'
    split
    · exact (hx _ file hfile).of_eq rfl rfl
    · exact hx _ file hfile
  · exact serves_refusal
  · exact serves_refusal

/-- **What a request does.** -/
theorem handleRequest_serves (msgType : UInt8) :
    Serves id x (handleRequest ambient maxUploadBytes id cursor x msgType) := by
  rw [handleRequest]
  refine serves_ite (handleRealpath_serves id cursor x) ?_
  refine serves_ite (handleStat_serves ambient id cursor x) ?_
  refine serves_ite (handleLstat_serves ambient id cursor x) ?_
  refine serves_ite (handleOpendir_serves ambient id cursor x) ?_
  refine serves_ite (handleReaddir_serves id cursor x) ?_
  refine serves_ite (handleOpen_serves ambient maxUploadBytes id cursor x) ?_
  refine serves_ite (handleRead_serves id cursor x) ?_
  refine serves_ite (handleWrite_serves maxUploadBytes id cursor x) ?_
  refine serves_ite (handleClose_serves ambient id cursor x) ?_
  refine serves_ite (handleFstat_serves ambient id cursor x) ?_
  refine serves_ite (handleSetstat_serves id cursor x) ?_
  refine serves_ite (handleFsetstat_serves id cursor x) ?_
  refine serves_ite (handleRemove_serves id cursor x) ?_
  refine serves_ite (handleMkdir_serves ambient id cursor x) ?_
  refine serves_ite (handleRmdir_serves id cursor x) ?_
  refine serves_ite (handleRename_serves id cursor x) ?_
  refine serves_ite (handleReadlink_serves id cursor x) ?_
  exact serves_ite (handleSymlink_serves ambient id cursor x) serves_refusal

end Handlers

end Sftp

end Mimic
