import Mimic.Network.Sftp

/-!
# Files received over SCP

`write_to_vfs` of `network/ssh.rs`: a file that the sink has received whole is written into the
session's filesystem, and the path it went to is returned for the `upload` event. The file itself is
the `CompletedFile` of `network/scp.rs`.
-/

namespace Mimic

namespace Scp

/-- A file fully received over SCP. -/
structure CompletedFile where
  /-- The name from the `C` control message. -/
  name : Str
  /-- The nested directories, joined with slashes; empty for a top-level file. -/
  relDir : Str
  mode : UInt32
  /-- The contents, cut at the upload cap. -/
  data : Bytes
  /-- The size from the `C` control message. -/
  size : ℕ
  /-- The digest of the whole body, past the cap as well. -/
  payloadSha256 : Str
  truncated : Bool

/-- Resolve `path` against `cwd` into an absolute path text, without a lookup. -/
def absPath (cwd path : Str) : Str :=
  if path.head? = some '/' then path
  else if cwd = ['/'] then '/' :: path
  else cwd ++ '/' :: path

/-- The directory a file lands in and its final name. -/
def destination (shell : Shell) (target : Str) (recursive : Bool) (file : CompletedFile) :
    Str × Str :=
  let targetAbs := absPath (shell.vfs.pathOf shell.cwd) target
  let base :=
    if file.relDir = [] then targetAbs
    else Text.trimEndMatches '/' targetAbs ++ '/' :: file.relDir
  let targetIsDir :=
    ((shell.vfs.resolve shell.cwd base).map fun id ↦ (shell.vfs.node id).metadata.isDir).getD false
  if targetIsDir ∨ target.getLast? = some '/' ∨ recursive ∨ file.relDir ≠ [] then (base, file.name)
  else Vfs.splitPath (Text.trimEndMatches '/' base)

/-- Materialise an uploaded file, returning its absolute path. Where a cap refuses it, that is the
path that was asked for. -/
def writeToVfs (now : Timestamp) (shell : Shell) (target : Str) (recursive : Bool)
    (file : CompletedFile) : Shell × Str :=
  let (dirPath, name) := destination shell target recursive file
  let intended := Text.trimEndMatches '/' dirPath ++ '/' :: name
  let made := shell.vfs.mkdirP now dirPath 0o755 shell.uid shell.gid
  match made.2 with
  | none => ({ shell with vfs := made.1 }, intended)
  | some parent =>
    let added := made.1.addFile now parent name file.data (file.mode &&& 0o7777) shell.uid shell.gid
    if added.2 = parent then ({ shell with vfs := added.1 }, intended)
    else ({ shell with vfs := added.1 }, added.1.pathOf added.2)

end Scp

end Mimic
