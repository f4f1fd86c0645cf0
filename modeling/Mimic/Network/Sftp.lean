import Mimic.Commands.Listing
import Mimic.Network.Wire
import Mimic.Vfs.Resolve

/-!
# The SFTP subsystem

`network/sftp.rs`: the state machine behind the `sftp` subsystem. A session reassembles frames from
channel data (`feed`), answers each request out of the shell's filesystem (`handlePacket`), and
keeps uploads in handles until they are closed or the channel ends (`intoPendingUploads`).

A request works on an `Exchange`: the session, the shell, the responses of the current `feed` and
the uploads it completed. Every handler appends its response to `out` itself, at the place the
source does.

Readings of the machine are as follows.

* `usize` has 64 bits. Byte counts are natural numbers, with the source's saturation written out.
* A SHA-256 hasher is the bytes it was fed, and finalizing it applies the digest function of the
  `Ambient`, which also holds the clock reading of the call.
* The loop of `feed` works on the unread part of the buffer. It consumes four bytes at least in each
  iteration, so the length of the buffer bounds it (`feedLoop_fuel_irrelevant`).
-/

namespace Mimic

/-- What the subsystems use of a session's shell. -/
structure Shell where
  vfs : Vfs
  cwd : NodeId
  uid : UInt32
  gid : UInt32

namespace Sftp

open Wire

/-! ### Protocol constants -/

def sshFxpInit : UInt8 := 1
def sshFxpVersion : UInt8 := 2
def sshFxpOpen : UInt8 := 3
def sshFxpClose : UInt8 := 4
def sshFxpRead : UInt8 := 5
def sshFxpWrite : UInt8 := 6
def sshFxpLstat : UInt8 := 7
def sshFxpFstat : UInt8 := 8
def sshFxpSetstat : UInt8 := 9
def sshFxpFsetstat : UInt8 := 10
def sshFxpOpendir : UInt8 := 11
def sshFxpReaddir : UInt8 := 12
def sshFxpRemove : UInt8 := 13
def sshFxpMkdir : UInt8 := 14
def sshFxpRmdir : UInt8 := 15
def sshFxpRealpath : UInt8 := 16
def sshFxpStat : UInt8 := 17
def sshFxpRename : UInt8 := 18
def sshFxpReadlink : UInt8 := 19
def sshFxpSymlink : UInt8 := 20
def sshFxpStatus : UInt8 := 101
def sshFxpHandle : UInt8 := 102
def sshFxpData : UInt8 := 103
def sshFxpName : UInt8 := 104
def sshFxpAttrs : UInt8 := 105

def sshFxOk : UInt32 := 0
def sshFxEof : UInt32 := 1
def sshFxNoSuchFile : UInt32 := 2
def sshFxFailure : UInt32 := 4
def sshFxBadMessage : UInt32 := 5
def sshFxOpUnsupported : UInt32 := 8

def sshFxfRead : UInt32 := 0x00000001
def sshFxfWrite : UInt32 := 0x00000002

def maxSftpPacketLen : ℕ := 256 * 1024
def maxSftpHandles : ℕ := 64
/-- Ceiling on bytes held across one session's open handles, as a multiple of
`max_upload_bytes`. -/
def sftpSessionBufferMultiplier : ℕ := 2
/-- Ceiling on the response bytes one `feed` may accumulate before it stops processing. -/
def maxSftpFeedResponse : ℕ := 1024 * 1024
def maxReadChunk : ℕ := 32 * 1024
def maxDirEntriesPerRead : ℕ := 64

/-- `u64::MAX`, and `usize::MAX`. -/
def u64Max : ℕ := 2 ^ 64 - 1

/-! ### Sessions -/

/-- What a call reads from outside: the clock, and the digest function. -/
structure Ambient where
  now : Timestamp
  sha256 : Bytes → Bytes

/-- A payload of two bytes. -/
def hi : Bytes := [0x68, 0x69]

/-- Its SHA-256. -/
def hiDigest : Bytes :=
  [0x8f, 0x43, 0x43, 0x46, 0x64, 0x8f, 0x6b, 0x96, 0xdf, 0x89, 0xdd, 0xa9, 0x01, 0xc5, 0x17, 0x6b,
    0x10, 0xa6, 0xd8, 0x39, 0x61, 0xdd, 0x3c, 0x1a, 0xc8, 0x8b, 0x59, 0xb2, 0xdc, 0x32, 0x7a, 0xa4]

/-- A completed upload, ready for quarantine and logging. -/
structure CompletedUpload where
  name : Str
  destPath : Str
  mode : UInt32
  data : Bytes
  size : ℕ
  payloadSha256 : Str
  truncated : Bool

/-- An entry of an open directory. -/
structure DirEntry where
  name : Str
  long : Str
  metadata : Metadata
  size : ℕ

/-- An upload in progress. -/
structure WriteFile where
  destPath : Str
  name : Str
  data : Bytes
  size : ℕ
  /-- The bytes the hasher was fed. -/
  hashed : Bytes
  mode : UInt32
  truncated : Bool

/-- An open handle. -/
inductive SftpHandle
  | dir (entries : List DirEntry) (offset : ℕ)
  | readFile (data : Bytes) (metadata : Metadata)
  | writeFile (file : WriteFile)

/-- The state of the SFTP subsystem. -/
structure SftpSession where
  buf : Bytes
  handles : Std.ExtTreeMap Bytes SftpHandle
  nextHandle : UInt32
  /-- Bytes currently held across every open handle's buffer. -/
  bufferedBytes : ℕ

namespace SftpSession

def new : SftpSession := ⟨[], ∅, 1, 0⟩

/-- Per-session ceiling on bytes held across all open handles. -/
def bufferCap (maxUploadBytes : ℕ) : ℕ :=
  min (min (maxUploadBytes * sftpSessionBufferMultiplier) u64Max) u64Max

/-- Whether `extra` more bytes can be buffered without exceeding the cap. -/
def canBuffer (s : SftpSession) (extra maxUploadBytes : ℕ) : Bool :=
  min (s.bufferedBytes + extra) u64Max ≤ bufferCap maxUploadBytes

/-- The bytes of the next handle. -/
def handleBytes (s : SftpSession) : Bytes := BigEndian.encode 4 s.nextHandle.toNat

/-- Enter a handle under the bytes `alloc_handle` returns. -/
def insertHandle (s : SftpSession) (handle : SftpHandle) : SftpSession :=
  { s with
    handles := s.handles.insert s.handleBytes handle
    nextHandle := s.nextHandle + 1 }

end SftpSession

/-- What a request works on. -/
structure Exchange where
  session : SftpSession
  shell : Shell
  out : Bytes
  completed : List CompletedUpload

/-! ### Responses -/

def putStatus (out : Bytes) (id code : UInt32) (msg : Str) : Bytes :=
  sendPacket out sshFxpStatus fun p ↦ putStr (putStr (putU32 (putU32 p id) code) msg) []

def putHandle (out : Bytes) (id : UInt32) (handle : Bytes) : Bytes :=
  sendPacket out sshFxpHandle fun p ↦ putBytes (putU32 p id) handle

def putData (out : Bytes) (id : UInt32) (data : Bytes) : Bytes :=
  sendPacket out sshFxpData fun p ↦ putBytes (putU32 p id) data

def putAttrsPkt (out : Bytes) (id : UInt32) (metadata : Metadata) (size : ℕ) : Bytes :=
  sendPacket out sshFxpAttrs fun p ↦ putAttrs (putU32 p id) metadata size

def putNamePkt (out : Bytes) (id : UInt32) (entries : List NameEntry) : Bytes :=
  sendPacket out sshFxpName fun p ↦
    entries.foldl putNameEntry (putU32 (putU32 p id) (UInt32.ofNat entries.length))

namespace Exchange

variable (x : Exchange) (id : UInt32)

def status (code : UInt32) (msg : String) : Exchange :=
  { x with out := putStatus x.out id code msg.toList }

def ok : Exchange := x.status id sshFxOk "OK"

def malformed : Exchange := x.status id sshFxBadMessage "Malformed packet"

def noSuchFile : Exchange := x.status id sshFxNoSuchFile "No such file or directory"

def invalidHandle : Exchange := x.status id sshFxFailure "Invalid handle"

def invalidPath : Exchange := x.status id sshFxFailure "Invalid path"

def tooManyHandles : Exchange := x.status id sshFxFailure "Too many open handles"

def eof : Exchange := x.status id sshFxEof "End of file"

/-- Enter a handle and answer with its bytes. -/
def openHandle (handle : SftpHandle) : Exchange :=
  { x with
    session := x.session.insertHandle handle
    out := putHandle x.out id x.session.handleBytes }

/-- Answer with the attributes of a node. -/
def nodeAttrs (ambient : Ambient) (node : Node) : Exchange :=
  { x with out := putAttrsPkt x.out id node.metadata (Listing.nodeSize ambient.now node) }

/-- Replace the filesystem. -/
def setVfs (vfs : Vfs) : Exchange := { x with shell := { x.shell with vfs := vfs } }

end Exchange

/-! ### Paths -/

/-- Backslashes become slashes and control characters go. -/
def sanitize (path : Str) : Str :=
  (path.map fun c ↦ if c = '\\' then '/' else c).filter fun c ↦ !Text.isControl c

/-- One component of `normalize_path`'s loop. -/
def pushComp (parts : List Str) (comp : Str) : List Str :=
  if comp = [] ∨ comp = ['.'] then parts
  else if comp = ['.', '.'] then parts.dropLast
  else parts ++ [comp]

/-- An absolute path without empty, `.` and `..` components. -/
def normalizePath (cwd path : Str) : Str :=
  let sanitized := sanitize path
  let raw :=
    if sanitized.head? = some '/' then sanitized
    else if cwd = ['/'] then '/' :: sanitized
    else cwd ++ '/' :: sanitized
  '/' :: Vfs.joinSlash ((Vfs.splitSlash raw).foldl pushComp [])

/-- The absolute path a request means. -/
def Exchange.absolute (x : Exchange) (path : Str) : Str :=
  normalizePath (x.shell.vfs.pathOf x.shell.cwd) path

/-- The node a path leads to from the working directory. -/
def Exchange.resolve (x : Exchange) (path : Str) : Option NodeId :=
  x.shell.vfs.resolve x.shell.cwd path

/-- The long form of a directory entry. -/
def formatDirEntry (ambient : Ambient) (name : Str) (metadata : Metadata) (size : ℕ)
    (symlinkTarget : Option Str) : Str :=
  let nlink := if metadata.isDir then 2 else 1
  let suffix := match symlinkTarget with
    | some target => " -> ".toList ++ target
    | none => []
  Listing.modeString metadata.mode ++ [' '] ++ Text.alignRight 2 (Text.decimal nlink) ++ [' '] ++
    Text.alignLeft 8 (Listing.uidName metadata.uid) ++ [' '] ++
    Text.alignLeft 8 (Listing.gidName metadata.gid) ++ [' '] ++
    Text.alignRight 8 (Text.decimal size) ++ [' '] ++
    Listing.formatTime ambient.now metadata.mtime ++ [' '] ++ name ++ suffix

/-! ### Requests about paths -/

section Requests

variable (ambient : Ambient) (maxUploadBytes : ℕ) (id : UInt32) (cursor : Bytes) (x : Exchange)

def handleRealpath : Exchange :=
  match getStr cursor with
  | none => x.malformed id
  | some (path, _) =>
    let canonical := x.absolute path
    { x with out := putNamePkt x.out id [⟨canonical, canonical, none⟩] }

def handleStat : Exchange :=
  match getStr cursor with
  | none => x.malformed id
  | some (path, _) =>
    match x.resolve (x.absolute path) with
    | some node => x.nodeAttrs id ambient (x.shell.vfs.node node)
    | none => x.noSuchFile id

def handleLstat : Exchange :=
  match getStr cursor with
  | none => x.malformed id
  | some (path, _) =>
    let abs := x.absolute path
    if abs = ['/'] then x.nodeAttrs id ambient (x.shell.vfs.node x.shell.vfs.root)
    else
      let split := Vfs.splitPath abs
      match (x.resolve split.1).bind fun parent ↦ x.shell.vfs.child parent split.2 with
      | some node => x.nodeAttrs id ambient (x.shell.vfs.node node)
      | none => x.noSuchFile id

/-- The entries an open directory will list. -/
def dirEntries (vfs : Vfs) (dir : NodeId) : List DirEntry :=
  let dirMeta := (vfs.node dir).metadata
  let parentMeta := (vfs.node ((vfs.parentOf dir).getD dir)).metadata
  let dot : DirEntry := ⟨['.'], formatDirEntry ambient ['.'] dirMeta 4096 none, dirMeta, 4096⟩
  let dotdot : DirEntry :=
    ⟨['.', '.'], formatDirEntry ambient ['.', '.'] parentMeta 4096 none, parentMeta, 4096⟩
  let children := ((vfs.entries dir).getD []).map fun e ↦
    let node := vfs.node e.2
    let size := Listing.nodeSize ambient.now node
    let target := match node.kind with
      | .symlink target => some target
      | _ => none
    (⟨e.1, formatDirEntry ambient e.1 node.metadata size target, node.metadata, size⟩ : DirEntry)
  dot :: dotdot :: children

def handleOpendir : Exchange :=
  match getStr cursor with
  | none => x.malformed id
  | some (path, _) =>
    match x.resolve (x.absolute path) with
    | some dir =>
      if (x.shell.vfs.node dir).metadata.isDir then
        if x.session.handles.size ≥ maxSftpHandles then x.tooManyHandles id
        else x.openHandle id (.dir (dirEntries ambient x.shell.vfs dir) 0)
      else x.status id sshFxFailure "Not a directory"
    | none => x.noSuchFile id

def handleOpen : Exchange :=
  match getStr cursor with
  | none => x.malformed id
  | some (path, cursor) =>
    match getU32 cursor with
    | none => x.malformed id
    | some (pflags, cursor) =>
      let attrs := getAttrs cursor
      let abs := x.absolute path
      let name := (Vfs.splitPath abs).2
      if name = [] then x.invalidPath id
      else if x.session.handles.size ≥ maxSftpHandles then x.tooManyHandles id
      else if pflags &&& sshFxfWrite != 0 then
        let mode := ((attrs.bind ParsedAttrs.permissions).getD 0o644) &&& 0o7777
        x.openHandle id (.writeFile ⟨abs, name, [], 0, [], mode, false⟩)
      else if pflags &&& sshFxfRead != 0 then
        match x.resolve abs with
        | some node =>
          match (x.shell.vfs.node node).fileBytes ambient.now with
          | some data =>
            if !x.session.canBuffer data.length maxUploadBytes then x.tooManyHandles id
            else
              let session :=
                { x.session with bufferedBytes := x.session.bufferedBytes + data.length }
              { x with session := session }.openHandle id
                (.readFile data (x.shell.vfs.node node).metadata)
          | none => x.status id sshFxFailure "Not a regular file"
        | none => x.noSuchFile id
      else x.status id sshFxFailure "Invalid open flags"

/-- The attribute changes of a `SETSTAT`. -/
def applyAttrs (vfs : Vfs) (node : NodeId) (attrs : ParsedAttrs) : Vfs :=
  let vfs := match attrs.permissions with
    | some perms => vfs.chmod node perms
    | none => vfs
  let vfs := match attrs.uidGid with
    | some (uid, gid) => vfs.chown node uid gid
    | none => vfs
  match attrs.acmodtime with
  | some (_, mtime) => vfs.setMtime node mtime.toNat
  | none => vfs

def handleSetstat : Exchange :=
  match getStr cursor with
  | none => x.malformed id
  | some (path, cursor) =>
    match x.resolve (x.absolute path) with
    | some node =>
      match getAttrs cursor with
      | some attrs => (x.setVfs (applyAttrs x.shell.vfs node attrs)).ok id
      | none => x.ok id
    | none => x.noSuchFile id

def handleRemove : Exchange :=
  match getStr cursor with
  | none => x.malformed id
  | some (path, _) =>
    let split := Vfs.splitPath (x.absolute path)
    if split.2 = [] then x.invalidPath id
    else
      match x.resolve split.1 with
      | some parent =>
        let unlinked := x.shell.vfs.unlink parent split.2
        if unlinked.2.isSome then (x.setVfs unlinked.1).ok id
        else (x.setVfs unlinked.1).noSuchFile id
      | none => x.noSuchFile id

def handleMkdir : Exchange :=
  match getStr cursor with
  | none => x.malformed id
  | some (path, cursor) =>
    let attrs := getAttrs cursor
    let split := Vfs.splitPath (x.absolute path)
    if split.2 = [] then x.invalidPath id
    else
      match x.resolve split.1 with
      | some parent =>
        let perms := ((attrs.bind ParsedAttrs.permissions).getD 0o755) &&& 0o7777
        (x.setVfs (x.shell.vfs.mkdir ambient.now parent split.2 perms x.shell.uid
          x.shell.gid).1).ok id
      | none => x.noSuchFile id

def handleRmdir : Exchange :=
  match getStr cursor with
  | none => x.malformed id
  | some (path, _) =>
    let split := Vfs.splitPath (x.absolute path)
    if split.2 = [] then x.invalidPath id
    else
      match x.resolve split.1 with
      | some parent =>
        match x.shell.vfs.child parent split.2 with
        | some child =>
          match x.shell.vfs.entries child with
          | some entries =>
            if entries.isEmpty then
              (x.setVfs (x.shell.vfs.unlink parent split.2).1).ok id
            else x.status id sshFxFailure "Directory not empty"
          | none => x.status id sshFxFailure "Not a directory"
        | none => x.noSuchFile id
      | none => x.noSuchFile id

def handleRename : Exchange :=
  match getStr cursor with
  | none => x.malformed id
  | some (oldpath, cursor) =>
    match getStr cursor with
    | none => x.malformed id
    | some (newpath, _) =>
      let oldAbs := x.absolute oldpath
      let split := Vfs.splitPath (x.absolute newpath)
      if split.2 = [] then x.invalidPath id
      else
        match x.resolve oldAbs, x.resolve split.1 with
        | some old, some newParent =>
          let renamed := x.shell.vfs.rename old newParent split.2
          if renamed.2 then (x.setVfs renamed.1).ok id
          else (x.setVfs renamed.1).status id sshFxFailure "Rename failed"
        | _, _ => x.noSuchFile id

def handleReadlink : Exchange :=
  match getStr cursor with
  | none => x.malformed id
  | some (path, _) =>
    let split := Vfs.splitPath (x.absolute path)
    if split.2 = [] then x.invalidPath id
    else
      match (x.resolve split.1).bind fun parent ↦ x.shell.vfs.child parent split.2 with
      | some node =>
        match (x.shell.vfs.node node).kind with
        | .symlink target => { x with out := putNamePkt x.out id [⟨target, target, none⟩] }
        | _ => x.status id sshFxFailure "Not a symlink"
      | none => x.noSuchFile id

def handleSymlink : Exchange :=
  match getStr cursor with
  | none => x.malformed id
  | some (linkpath, cursor) =>
    match getStr cursor with
    | none => x.malformed id
    | some (targetpath, _) =>
      let split := Vfs.splitPath (x.absolute linkpath)
      if split.2 = [] then x.invalidPath id
      else
        match x.resolve split.1 with
        | some parent =>
          (x.setVfs (x.shell.vfs.addSymlink ambient.now parent split.2 (sanitize targetpath)).1).ok
            id
        | none => x.noSuchFile id

/-! ### Requests about handles -/

def handleReaddir : Exchange :=
  match getBytes cursor with
  | none => x.malformed id
  | some (handle, _) =>
    match x.session.handles[handle]? with
    | some (.dir entries offset) =>
      if offset ≥ entries.length then x.eof id
      else
        let last := min (offset + maxDirEntriesPerRead) entries.length
        let slice := (entries.drop offset).take (last - offset)
        let formatted := slice.map fun e ↦ (⟨e.name, e.long, some (e.metadata, e.size)⟩ : NameEntry)
        { x with
          session := { x.session with
            handles := x.session.handles.insert handle (.dir entries last) }
          out := putNamePkt x.out id formatted }
    | _ => x.invalidHandle id

def handleRead : Exchange :=
  match getBytes cursor with
  | none => x.malformed id
  | some (handle, cursor) =>
    match getU64 cursor with
    | none => x.malformed id
    | some (rawOffset, cursor) =>
      match getU32 cursor with
      | none => x.malformed id
      | some (len, _) =>
        match x.session.handles[handle]? with
        | some (.readFile data _) =>
          let offset := rawOffset.toNat
          if offset > u64Max ∨ offset ≥ data.length then x.eof id
          else
            let readLen := min (min len.toNat maxReadChunk) (data.length - offset)
            { x with out := putData x.out id ((data.drop offset).take readLen) }
        | _ => x.invalidHandle id

/-- `grow_to`: zero-fill up to `last`, if the budget allows it. Returns the bytes added. -/
def growTo (budgetLeft : ℕ) (data : Bytes) (last : ℕ) : Option (Bytes × ℕ) :=
  if last ≤ data.length then some (data, 0)
  else
    let extra := last - data.length
    if extra > budgetLeft then none else some (data ++ List.replicate extra 0, extra)

/-- `copy_from_slice` into the bytes from `offset` on. -/
def overwrite (data : Bytes) (offset : ℕ) (chunk : Bytes) : Bytes :=
  data.take offset ++ chunk ++ data.drop (offset + chunk.length)

/-- Store a chunk as far as the per-file cap and the budget allow. Returns the bytes added. -/
def storeChunk (budgetLeft : ℕ) (file : WriteFile) (rawOffset : ℕ) (chunk : Bytes) :
    WriteFile × ℕ :=
  let rawEnd := min (rawOffset + chunk.length) u64Max
  if rawEnd ≤ maxUploadBytes ∧ rawEnd ≤ u64Max then
    match growTo budgetLeft file.data rawEnd with
    | some (data, grew) => ({ file with data := overwrite data rawOffset chunk }, grew)
    | none => ({ file with truncated := true }, 0)
  else if rawOffset < maxUploadBytes ∧ rawOffset < u64Max then
    let allowed := min (maxUploadBytes - rawOffset) (u64Max - rawOffset)
    let take := min allowed chunk.length
    match growTo budgetLeft file.data (rawOffset + take) with
    | some (data, grew) =>
      ({ file with data := overwrite data rawOffset (chunk.take take), truncated := true }, grew)
    | none => ({ file with truncated := true }, 0)
  else ({ file with truncated := true }, 0)

def handleWrite : Exchange :=
  match getBytes cursor with
  | none => x.malformed id
  | some (handle, cursor) =>
    match getU64 cursor with
    | none => x.malformed id
    | some (rawOffset, cursor) =>
      match getBytes cursor with
      | none => x.malformed id
      | some (chunk, _) =>
        let budgetLeft := SftpSession.bufferCap maxUploadBytes - x.session.bufferedBytes
        match x.session.handles[handle]? with
        | some (.writeFile file) =>
          let hashed :=
            { file with hashed := file.hashed ++ chunk, size := file.size + chunk.length }
          let stored := storeChunk maxUploadBytes budgetLeft hashed rawOffset.toNat chunk
          let session := { x.session with
            handles := x.session.handles.insert handle (.writeFile stored.1)
            bufferedBytes := x.session.bufferedBytes + stored.2 }
          { x with session := session }.ok id
        | _ => x.invalidHandle id

/-- The bytes a handle holds. -/
def SftpHandle.held : SftpHandle → ℕ
  | .dir .. => 0
  | .readFile data _ => data.length
  | .writeFile file => file.data.length

/-- `hex`, of `network/ssh.rs`. -/
def hex (bytes : Bytes) : Str :=
  bytes.flatMap fun b ↦ [Nat.digitChar (b.toNat / 16), Nat.digitChar (b.toNat % 16)]

/-- Write a finished upload into the filesystem. Where its directory cannot be made, nothing is
written. -/
def mirror (shell : Shell) (file : WriteFile) : Shell :=
  let made :=
    shell.vfs.mkdirP ambient.now (Vfs.splitPath file.destPath).1 0o755 shell.uid shell.gid
  match made.2 with
  | some parent =>
    { shell with vfs := (made.1.addFile ambient.now parent file.name file.data file.mode shell.uid
        shell.gid).1 }
  | none => { shell with vfs := made.1 }

/-- What a finished upload reports. -/
def completedUpload (file : WriteFile) : CompletedUpload where
  name := file.name
  destPath := file.destPath
  mode := file.mode
  data := file.data
  size := file.size
  payloadSha256 := hex (ambient.sha256 file.hashed)
  truncated := file.truncated

def handleClose : Exchange :=
  match getBytes cursor with
  | none => x.malformed id
  | some (handle, _) =>
    match x.session.handles[handle]? with
    | some h =>
      let session := { x.session with
        handles := x.session.handles.erase handle
        bufferedBytes := x.session.bufferedBytes - h.held }
      match h with
      | .writeFile file =>
        ({ x with
          session := session
          shell := mirror ambient x.shell file
          completed := x.completed ++ [completedUpload ambient file] } : Exchange).ok id
      | _ => { x with session := session }.ok id
    | none => x.invalidHandle id

def handleFstat : Exchange :=
  match getBytes cursor with
  | none => x.malformed id
  | some (handle, _) =>
    match x.session.handles[handle]? with
    | some (.readFile data metadata) =>
      { x with out := putAttrsPkt x.out id metadata data.length }
    | some (.writeFile file) =>
      let metadata := Metadata.new ambient.now sIfReg file.mode x.shell.uid x.shell.gid
      { x with out := putAttrsPkt x.out id metadata file.size }
    | some (.dir ..) =>
      let metadata := Metadata.new ambient.now sIfDir 0o755 x.shell.uid x.shell.gid
      { x with out := putAttrsPkt x.out id metadata 4096 }
    | none => x.invalidHandle id

def handleFsetstat : Exchange :=
  match getBytes cursor with
  | none => x.malformed id
  | some (handle, cursor) =>
    let attrs := getAttrs cursor
    match x.session.handles[handle]? with
    | some (.writeFile file) =>
      let file := match attrs.bind ParsedAttrs.permissions with
        | some perms => { file with mode := perms &&& 0o7777 }
        | none => file
      let session := { x.session with
        handles := x.session.handles.insert handle (.writeFile file) }
      { x with session := session }.ok id
    | some _ => x.ok id
    | none => x.invalidHandle id

/-! ### The state machine -/

/-- A request whose id was read, by its type. -/
def handleRequest (msgType : UInt8) : Exchange :=
  if msgType = sshFxpRealpath then handleRealpath id cursor x
  else if msgType = sshFxpStat then handleStat ambient id cursor x
  else if msgType = sshFxpLstat then handleLstat ambient id cursor x
  else if msgType = sshFxpOpendir then handleOpendir ambient id cursor x
  else if msgType = sshFxpReaddir then handleReaddir id cursor x
  else if msgType = sshFxpOpen then handleOpen ambient maxUploadBytes id cursor x
  else if msgType = sshFxpRead then handleRead id cursor x
  else if msgType = sshFxpWrite then handleWrite maxUploadBytes id cursor x
  else if msgType = sshFxpClose then handleClose ambient id cursor x
  else if msgType = sshFxpFstat then handleFstat ambient id cursor x
  else if msgType = sshFxpSetstat then handleSetstat id cursor x
  else if msgType = sshFxpFsetstat then handleFsetstat id cursor x
  else if msgType = sshFxpRemove then handleRemove id cursor x
  else if msgType = sshFxpMkdir then handleMkdir ambient id cursor x
  else if msgType = sshFxpRmdir then handleRmdir id cursor x
  else if msgType = sshFxpRename then handleRename id cursor x
  else if msgType = sshFxpReadlink then handleReadlink id cursor x
  else if msgType = sshFxpSymlink then handleSymlink ambient id cursor x
  else x.status id sshFxOpUnsupported "Operation unsupported"

end Requests

/-- One packet, without its length. -/
def handlePacket (ambient : Ambient) (maxUploadBytes : ℕ) (pkt : Bytes) (x : Exchange) : Exchange :=
  match pkt with
  | [] => x
  | msgType :: cursor =>
    if msgType = sshFxpInit then
      { x with out := sendPacket x.out sshFxpVersion fun p ↦ putU32 p 3 }
    else
      match getU32 cursor with
      | none => x
      | some (id, cursor) => handleRequest ambient maxUploadBytes id cursor x msgType

/-- The loop of `feed` over the unread bytes: what is left of them, and the exchange. -/
def feedLoop (ambient : Ambient) (maxUploadBytes : ℕ) : ℕ → Bytes → Exchange → Bytes × Exchange
  | 0, rest, x => (rest, x)
  | fuel + 1, rest, x =>
    if rest.length < 4 then (rest, x)
    else
      let pktLen := BigEndian.decode (rest.take 4)
      if pktLen > maxSftpPacketLen then ([], x)
      else if rest.length < 4 + pktLen then (rest, x)
      else
        let handled := handlePacket ambient maxUploadBytes ((rest.drop 4).take pktLen) x
        let unread := rest.drop (4 + pktLen)
        if handled.out.length ≥ maxSftpFeedResponse then (unread, handled)
        else feedLoop ambient maxUploadBytes fuel unread handled

/-- Feed channel data into the state machine: the session and shell after it, the bytes to send back
and the uploads completed. -/
def feed (ambient : Ambient) (maxUploadBytes : ℕ) (data : Bytes) (session : SftpSession)
    (shell : Shell) : Exchange :=
  let buf := session.buf ++ data
  let r := feedLoop ambient maxUploadBytes buf.length buf ⟨session, shell, [], []⟩
  { r.2 with session := { r.2.session with buf := r.1 } }

/-- Finalize one handle when the channel closes. An upload without a byte is dropped. -/
def finishPending (ambient : Ambient) (acc : Shell × List CompletedUpload) (handle : SftpHandle) :
    Shell × List CompletedUpload :=
  match handle with
  | .writeFile file =>
    if file.size > 0 ∨ file.data ≠ [] then
      (mirror ambient acc.1 file, acc.2 ++ [completedUpload ambient file])
    else acc
  | _ => acc

/-- Finalize the remaining write handles when the channel closes: the shell after it and the
uploads, in the order of their handles. -/
def intoPendingUploads (ambient : Ambient) (session : SftpSession) (shell : Shell) :
    Shell × List CompletedUpload :=
  (session.handles.toList.map Prod.snd).foldl (finishPending ambient) (shell, [])

end Sftp

end Mimic
