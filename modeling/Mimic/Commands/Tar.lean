import Mimic.Commands.Listing
import Mimic.Commands.Peak
import Mimic.Foundation.Records
import Mimic.Network.ScpSink

/-!
# `tar`

`tar` of `commands/fs.rs`: the options, the ustar records it writes and reads, and what it does with
them to the filesystem.

Two recursions get a bound. `tar_walk` descends at most as many levels as the arena has nodes, and
`tar_parse` reads at most as many records as the archive has blocks, since each of them takes one.

Of the session, `tar` changes the filesystem alone, so the functions that change something take the
session for the rest of it and hand on a `Vfs`.
-/

namespace Mimic

namespace Interp

namespace Tar

open Records
open Scp (parseUnsigned)

/-! ### Options -/

/-- What `tar` has read of its arguments. -/
structure Options where
  create : Bool
  extract : Bool
  list : Bool
  verbose : Bool
  archive : Option Str
  members : List Str
  expectFile : Bool
  first : Bool
  deriving DecidableEq

namespace Options

/-- Before any argument. -/
def start : Options := ⟨false, false, false, false, none, [], false, true⟩

/-- Apply a run of flag characters, up to the first unrecognised one. -/
def applyTarFlags (o : Options) : Str → Options × Option Char
  | [] => (o, none)
  | ch :: chars =>
    match ch with
    | 'c' => applyTarFlags { o with create := true } chars
    | 'x' => applyTarFlags { o with extract := true } chars
    | 't' => applyTarFlags { o with list := true } chars
    | 'v' => applyTarFlags { o with verbose := true } chars
    | 'f' => applyTarFlags { o with expectFile := true } chars
    | 'z' | 'j' | 'J' | 'p' | 'k' | 'm' => applyTarFlags o chars
    | other => (o, some other)

/-- The loop over the arguments, which an unrecognised flag ends. -/
def parse (o : Options) : List Str → Except Char Options
  | [] => .ok o
  | arg :: args =>
    if o.expectFile then
      parse { o with archive := some arg, expectFile := false, first := false } args
    else if "--file=".toList.isPrefixOf arg then
      parse { o with archive := some (arg.drop 7), first := false } args
    else if arg.head? = some '-' ∧ 1 < arg.length ∧ ¬ "--".toList.isPrefixOf arg then
      match o.applyTarFlags arg.tail with
      | (_, some bad) => .error bad
      | (o, none) => parse { o with first := false } args
    else if o.first ∧ arg ≠ [] ∧ arg.all "cxtvzjJpkfm".toList.contains then
      -- flags without a dash
      parse { (o.applyTarFlags arg).1 with first := false } args
    else parse { o with members := o.members ++ [arg], first := false } args

end Options

/-! ### Records -/

/-- The size of a record. -/
def tarBlock : ℕ := 512

/-- The blocking factor: an archive's size is a multiple of this. -/
def tarBlocking : ℕ := 20 * tarBlock

/-- `next_multiple_of`. -/
def nextMultipleOf (n k : ℕ) : ℕ := (n + k - 1) / k * k

/-- Copy `bytes` into a header field, cut to the width of the field. -/
def tarPut (header : Bytes) (start width : ℕ) (bytes : Bytes) : Bytes :=
  put header start (bytes.take width)

/-- `{:0>width$o}`. -/
def octal (width n : ℕ) : Str :=
  let digits := Nat.toDigits 8 n
  List.replicate (width - digits.length) '0' ++ digits

/-- Write a number: zero-padded octal, and the field's last byte left as it is. -/
def tarPutOctal (header : Bytes) (start width value : ℕ) : Bytes :=
  tarPut header start (width - 1) (Text.toUtf8 (octal (width - 1) value))

/-- `trim_matches(['\0', ' '])`. -/
def trimPadding (text : Str) : Str :=
  let isPadding : Char → Bool := fun c ↦ c = '\x00' ∨ c = ' '
  ((text.dropWhile isPadding).reverse.dropWhile isPadding).reverse

/-- Read a number. -/
def tarReadOctal (bytes : Bytes) : ℕ :=
  (parseUnsigned 8 64 (trimPadding (Text.fromUtf8Lossy bytes))).getD 0

/-- Read a text, which ends at the first NUL. -/
def tarReadStr (bytes : Bytes) : Str := Text.fromUtf8Lossy (bytes.takeWhile (· ≠ 0))

/-- The parts of a text before and behind each of its slashes, from the first one on. -/
def slashCuts : Str → List (Str × Str)
  | [] => []
  | c :: text =>
    let later := (slashCuts text).map fun cut ↦ (c :: cut.1, cut.2)
    if c = '/' then ([], text) :: later else later

/-- Split a member name across the `prefix` and the `name` field. A name that fits neither way is
left to `tarPut` to cut. -/
def tarSplitName (name : Str) : Str × Str :=
  if Text.byteLen name ≤ 100 then ([], name)
  else
    let fits : Str × Str → Bool := fun cut ↦ Text.byteLen cut.1 ≤ 155 ∧ Text.byteLen cut.2 ≤ 100
    ((slashCuts name).find? fits).getD ([], name)

/-- `ustar`. -/
def magic : Bytes := [117, 115, 116, 97, 114]

/-- The header record of a member, with a blank checksum. -/
def headerFields (name link : Str) (metadata : Metadata) (typeflag : UInt8) (size : ℕ) : Bytes :=
  let split := tarSplitName name
  let h := List.replicate tarBlock 0
  let h := tarPut h 0 100 (Text.toUtf8 split.2)
  let h := tarPutOctal h 100 8 (metadata.mode &&& 0o7777).toNat
  let h := tarPutOctal h 108 8 metadata.uid.toNat
  let h := tarPutOctal h 116 8 metadata.gid.toNat
  let h := tarPutOctal h 124 12 size
  let h := tarPutOctal h 136 12 metadata.mtime.toNat
  let h := put h 148 (List.replicate 8 32)
  let h := put h 156 [typeflag]
  let h := tarPut h 157 100 (Text.toUtf8 link)
  let h := put h 257 (magic ++ [0])
  let h := put h 263 [48, 48]
  let h := tarPut h 265 32 (Text.toUtf8 (Listing.uidName metadata.uid))
  let h := tarPut h 297 32 (Text.toUtf8 (Listing.gidName metadata.gid))
  tarPut h 345 155 (Text.toUtf8 split.1)

/-- The header record of a member. -/
def header (name link : Str) (metadata : Metadata) (typeflag : UInt8) (size : ℕ) : Bytes :=
  let h := headerFields name link metadata typeflag size
  let sum := (h.map UInt8.toNat).sum
  put h 148 (Text.toUtf8 (octal 6 sum) ++ [0, 32])

/-- Append the header record of a member. -/
def tarWriteHeader (name link : Str) (metadata : Metadata) (typeflag : UInt8) (size : ℕ)
    (out : Bytes) : Bytes :=
  out ++ header name link metadata typeflag size

/-! ### Creation -/

/-- The archive `tar -c` is building, and what it has to say about it. -/
structure TarBuild where
  bytes : Bytes
  log : Str
  errs : Str
  status : ℤ
  verbose : Bool
  /-- The archive's own node, when it already exists. -/
  archive : Option NodeId

namespace TarBuild

/-- A message about a member. -/
def complain (build : TarBuild) (name : Str) (message : String) : TarBuild :=
  { build with errs := build.errs ++ "tar: ".toList ++ name ++ message.toList }

/-- Under `-v`, the name of a member that was added. -/
def logged (build : TarBuild) (name : Str) : TarBuild :=
  if build.verbose then { build with log := build.log ++ name ++ ['\n'] } else build

/-- Add a header record. -/
def withHeader (build : TarBuild) (name link : Str) (metadata : Metadata) (typeflag : UInt8)
    (size : ℕ) : TarBuild :=
  { build with bytes := tarWriteHeader name link metadata typeflag size build.bytes }

/-- Add a regular file: its header, its bytes and padding. -/
def withFile (build : TarBuild) (name : Str) (metadata : Metadata) (contents : Bytes) : TarBuild :=
  let build := build.withHeader name [] metadata 48 contents.length
  let pad := nextMultipleOf contents.length tarBlock - contents.length
  { build with bytes := build.bytes ++ contents ++ List.replicate pad 0 }.logged name

end TarBuild

section Walk

variable (now : Timestamp) (s : Shell)

/-- A file or a directory that may not be read. -/
def refuse (name : Str) (build : TarBuild) : TarBuild :=
  { build.complain name ": Cannot open: Permission denied\n" with status := 2 }

/-- Append `id` and everything under it to the archive, as `name`. -/
def tarWalk : ℕ → NodeId → Str → TarBuild → TarBuild
  | 0, _, _, build => build
  | fuel + 1, id, name, build =>
    if build.archive = some id then build.complain name ": file is the archive; not dumped\n"
    else
      let node := s.vfs.node id
      let readable := readableBy node.metadata s.uid s.gid
      match node.kind with
      | .symlink target => (build.withHeader name target node.metadata 50 0).logged name
      | .file contents =>
        if !readable then refuse name build else build.withFile name node.metadata contents
      | .dynamicFile generator =>
        if !readable then refuse name build else build.withFile name node.metadata (generator now)
      | .directory children =>
        let dirName := Text.trimEndMatches '/' name ++ ['/']
        let build := (build.withHeader dirName [] node.metadata 53 0).logged dirName
        if !readable then refuse name build
        else
          children.toList.foldl (fun build e ↦ tarWalk fuel e.2 (dirName ++ e.1) build) build

end Walk

/-! ### Reading an archive -/

/-- One member read out of an archive. -/
structure TarEntry where
  name : Str
  mode : UInt32
  uid : UInt32
  gid : UInt32
  size : ℕ
  mtime : ℤ
  typeflag : UInt8
  link : Str
  /-- Offset of the member's contents within the archive. -/
  offset : ℕ
  deriving DecidableEq

/-- The member that a header record describes. -/
def readHeader (h : Bytes) (offset : ℕ) : TarEntry :=
  let front := tarReadStr (field h 345 155)
  let stem := tarReadStr (field h 0 100)
  { name := if front = [] then stem else front ++ '/' :: stem
    mode := UInt32.ofNat (tarReadOctal (field h 100 8)) &&& 0o7777
    uid := UInt32.ofNat (tarReadOctal (field h 108 8))
    gid := UInt32.ofNat (tarReadOctal (field h 116 8))
    size := tarReadOctal (field h 124 12)
    mtime := tarReadOctal (field h 136 12)
    typeflag := h.getD 156 0
    link := tarReadStr (field h 157 100)
    offset := offset }

/-- The loop of `tar_parse` from an offset on. -/
def tarParseLoop (data : Bytes) : ℕ → ℕ → List TarEntry
  | 0, _ => []
  | fuel + 1, start =>
    if data.length < start + tarBlock then []
    else
      let h := field data start tarBlock
      -- a zero record ends the stream
      if h.all (· == 0) ∨ field h 257 5 ≠ magic then []
      else
        let entry := readHeader h (start + tarBlock)
        entry :: tarParseLoop data fuel (start + (tarBlock + nextMultipleOf entry.size tarBlock))

/-- The members of a ustar stream, or `none` if it is not one. -/
def tarParse (data : Bytes) : Option (List TarEntry) :=
  if data.length < tarBlock ∨ field data 257 5 ≠ magic then none
  else some (tarParseLoop data (data.length / tarBlock) 0)

/-- Strip trailing slashes from a path operand, keeping a lone one. -/
def stripTrailingSlashes (path : Str) : Str :=
  let trimmed := Text.trimEndMatches '/' path
  if trimmed = [] then ['/'] else trimmed

/-- Whether a member is selected by the operands behind the archive. -/
def tarSelected (name : Str) (members : List Str) : Bool :=
  members.isEmpty ||
    let name := Text.trimEndMatches '/' name
    members.any fun m ↦
      let m := Text.trimStartMatches '/' (stripTrailingSlashes m)
      name = m || (m ++ ['/']).isPrefixOf name

/-- `{:02}` and its like: pad a number with zeros. -/
def zeroPad (width : ℕ) (digits : Str) : Str :=
  List.replicate (width - digits.length) '0' ++ digits

/-- A member's modification time as `tar -tv` shows it. -/
def tarDate (ts : ℤ) : Str :=
  let civil := Listing.civilFromDays (ts / 86400)
  let secs := (ts % 86400).toNat
  zeroPad 4 (Text.decimalInt civil.1) ++ ['-'] ++ Text.twoDigits civil.2.1 ++ ['-'] ++
    Text.twoDigits civil.2.2 ++ [' '] ++ Text.twoDigits (secs / 3600) ++ [':'] ++
      Text.twoDigits (secs % 3600 / 60)

/-- A line of `tar -tv`, and the width that the column of owner and size has from there on. -/
def tarLongEntry (entry : TarEntry) (ugswidth : ℕ) : Str × ℕ :=
  let typeBits := if entry.typeflag = 53 then sIfDir else if entry.typeflag = 50 then sIfLnk else 0
  let mode := Listing.modeString (typeBits ||| entry.mode)
  let owner := Listing.uidName entry.uid ++ ['/'] ++ Listing.gidName entry.gid
  let size := Text.decimal entry.size
  let ugswidth := max ugswidth (owner.length + size.length)
  let link := if entry.typeflag = 50 then " -> ".toList ++ entry.link else []
  (mode ++ [' '] ++ owner ++ [' '] ++ Text.alignRight (ugswidth - owner.length) size ++ [' '] ++
    tarDate entry.mtime ++ [' '] ++ entry.name ++ link ++ ['\n'], ugswidth)

/-! ### Member names -/

/-- Whether any component of a member name is `..`. -/
def tarHasDotDot (name : Str) : Bool := (Vfs.splitSlash name).any (· = ['.', '.'])

/-- The outer loop of `tar_strip_leading`: where what is dropped ends, when `i` characters have been
passed. -/
def stripLoop : ℕ → Str → ℕ → ℕ → ℕ
  | 0, _, _, cut => cut
  | _ + 1, [], _, cut => cut
  | fuel + 1, text, i, cut =>
    let dotdot := text.take 2 = ['.', '.'] ∧ (text.drop 2).head?.all (· = '/')
    let rest := (text.dropWhile (· ≠ '/')).dropWhile (· = '/')
    stripLoop fuel rest (i + (text.length - rest.length)) (if dotdot then i + 2 else cut)

/-- Where a member name begins for `tar`: behind its last `..` and the slashes there. -/
def leading (name : Str) : ℕ :=
  let cut := stripLoop name.length name 0 0
  cut + ((name.drop cut).takeWhile (· = '/')).length

/-- Strip the leading part of a member name, with a warning when it is not the part warned about
last. The three results are the name, the part warned about and the messages. -/
def tarStripLeading (name warned errs : Str) : Str × Str × Str :=
  let cut := leading name
  let stripped := name.take cut
  if 0 < cut ∧ warned ≠ stripped then
    (name.drop cut, stripped,
      errs ++ "tar: Removing leading ".toList ++ '\u0060' :: stripped ++
        "' from member names\n".toList)
  else (name.drop cut, warned, errs)

/-! ### Extraction -/

section Extraction

variable (now : Timestamp) (s : Shell)

/-- The loop of `tar_dest` over the directories of a member: each is entered, or made and entered.
-/
def tarDestLoop : Vfs → NodeId → List Str → Vfs × Option NodeId
  | v, dir, [] => (v, some dir)
  | v, dir, comp :: comps =>
    match v.child dir comp with
    | some existing =>
      if !(v.node existing).metadata.isDir then (v, none)
      else if existing = dir then (v, none)
      else tarDestLoop v existing comps
    | none =>
      let made := v.mkdir now dir comp 0o755 s.uid s.gid
      -- a cap dropped the insert
      if made.2 = dir then (made.1, none)
      else tarDestLoop made.1 made.2 comps

/-- The directory and the name that a member is extracted to. The directories that are missing are
made. -/
def tarDest (v : Vfs) (name : Str) : Vfs × Option (NodeId × Str) :=
  if tarHasDotDot name then (v, none)
  else
    let parts := (Vfs.splitSlash name).filter fun c ↦ c ≠ [] ∧ c ≠ ['.']
    match parts.getLast? with
    | none => (v, none)
    | some last =>
      let dest := tarDestLoop now s v s.cwd parts.dropLast
      (dest.1, dest.2.map fun dir ↦ (dir, last))

/-- What an extraction has come to. -/
structure Extraction where
  vfs : Vfs
  out : Str
  errs : Str
  status : ℤ
  /-- The leading part warned about last. -/
  warned : Str

namespace Extraction

/-- An error. -/
def fail (e : Extraction) (message : Str) : Extraction :=
  { e with errs := e.errs ++ "tar: ".toList ++ message, status := 2 }

end Extraction

/-- A member's contents within the archive. -/
def body (data : Bytes) (entry : TarEntry) : Bytes :=
  let stop := min (entry.offset + entry.size) data.length
  (data.take stop).drop (min entry.offset stop)

/-- Make what a member describes in a directory. -/
def makeMember (data : Bytes) (entry : TarEntry) (member : Str) (parent : NodeId) (name : Str)
    (e : Extraction) : Extraction :=
  let owner := if s.uid = 0 then (entry.uid, entry.gid) else (s.uid, s.gid)
  if entry.typeflag = 53 then
    { e with vfs := (e.vfs.mkdir now parent name entry.mode owner.1 owner.2).1 }
  else if entry.typeflag = 50 then
    { e with vfs := (e.vfs.addSymlink now parent name entry.link).1 }
  else if entry.typeflag = 48 ∨ entry.typeflag = 0 then
    let contents := body data entry
    let added := e.vfs.addFile now parent name contents entry.mode owner.1 owner.2
    let storedOk := match (added.1.node added.2).kind with
      | .file stored => decide (stored.length = contents.length)
      | _ => false
    let e := { e with vfs := added.1 }
    if storedOk then e else e.fail (member ++ ": Cannot write: No space left on device\n".toList)
  else e

/-- The message about a member whose directory may not be written to. -/
def denied (member : Str) : Str := member ++ ": Cannot open: Permission denied\n".toList

/-- Extract one member. -/
def extractMember (data : Bytes) (verbose : Bool) (members : List Str) (entry : TarEntry)
    (e : Extraction) : Extraction :=
  if !tarSelected entry.name members then e
  else
    let stripped := tarStripLeading entry.name e.warned e.errs
    let member := stripped.1
    let e := { e with warned := stripped.2.1, errs := stripped.2.2 }
    if tarHasDotDot entry.name then
      e.fail (entry.name ++ ": Member name contains '..'\n".toList)
    else
      let e := if verbose then { e with out := e.out ++ member ++ ['\n'] } else e
      match tarDest now s e.vfs member with
      | (v, none) =>
        { e with vfs := v }.fail (member ++ ": Cannot open: No such file or directory\n".toList)
      | (v, some (parent, name)) =>
        let e := { e with vfs := v }
        if !writableBy (v.node parent).metadata s.uid s.gid then e.fail (denied member)
        else makeMember now s data entry member parent name e

/-- The extraction loop. -/
def extractAll (data : Bytes) (verbose : Bool) (members : List Str) (entries : List TarEntry)
    (e : Extraction) : Extraction :=
  entries.foldl (fun e entry ↦ extractMember now s data verbose members entry e) e

end Extraction

/-! ### The command -/

section Command

variable (now : Timestamp)

/-- The loop over the operands of `tar -c`. -/
def createLoop (s : Shell) (build : TarBuild) (warned : Str) : List Str → TarBuild
  | [] => build
  | member :: members =>
    match s.vfs.resolve s.cwd member with
    | none =>
      let build := build.complain member ": Cannot stat: No such file or directory\n"
      createLoop s { build with status := 2 } warned members
    | some id =>
      let stripped := tarStripLeading (stripTrailingSlashes member) warned build.errs
      let stored := if stripped.1 = [] then ['.'] else stripped.1
      let build := { build with errs := stripped.2.2 }
      createLoop s (tarWalk now s s.vfs.nodes.length id stored build) stripped.2.1 members

/-- An archive with its end: two zero records, and zeros up to a whole number of blocks. -/
def finish (bytes : Bytes) : Bytes :=
  let bytes := bytes ++ List.replicate (2 * tarBlock) 0
  bytes ++ List.replicate (nextMultipleOf bytes.length tarBlocking - bytes.length) 0

/-- `tar -c`. -/
def create (verbose : Bool) (archivePath : Str) (members : List Str) (s : Shell) :
    Shell × CommandResult :=
  if members = [] then
    (s, .err ("tar: Cowardly refusing to create an empty archive\n" ++
      "Try 'tar --help' or 'tar --usage' for more information.\n").toList 2)
  else
    match resolveParent s archivePath with
    | none => (s, .err ("tar: ".toList ++ archivePath ++
      ": Cannot open: Not a directory\n".toList) 2)
    | some (parent, name) =>
      if !writableBy (s.vfs.node parent).metadata s.uid s.gid then
        (s, .err ("tar: ".toList ++ archivePath ++ ": Cannot open: Permission denied\n".toList ++
          "tar: Error is not recoverable: exiting now\n".toList) 2)
      else
        let build := createLoop now s ⟨[], [], [], 0, verbose, s.vfs.child parent name⟩ [] members
        let bytes := finish build.bytes
        let added := s.vfs.addFile now parent name bytes 0o644 s.uid s.gid
        let storedOk := match (added.1.node added.2).kind with
          | .file stored => decide (stored.length = bytes.length)
          | _ => false
        let s := { s with vfs := added.1 }
        if !storedOk then
          (s, .streams build.log (build.errs ++ "tar: ".toList ++ archivePath ++
            ": Cannot write: No space left on device\n".toList ++
              "tar: Error is not recoverable: exiting now\n".toList) 2)
        else if build.status ≠ 0 then
          (s, .streams build.log (build.errs ++
            "tar: Exiting with failure status due to previous errors\n".toList) build.status)
        else (s, .streams build.log build.errs build.status)

/-- What opening the archive for reading gives: its bytes and its members, or an error. -/
def openArchive (archivePath : Str) (s : Shell) : Except Str (Bytes × List TarEntry) :=
  let complain : String → Str := fun message ↦
    "tar: ".toList ++ archivePath ++ ": Cannot open: ".toList ++ message.toList ++
      "\ntar: Error is not recoverable: exiting now\n".toList
  let foreign : Str := ("tar: This does not look like a tar archive\n" ++
    "tar: Exiting with failure status due to previous errors\n").toList
  match s.vfs.resolve s.cwd archivePath with
  | none => .error (complain "No such file or directory")
  | some id =>
    let node := s.vfs.node id
    if node.metadata.isDir then .error (complain "Is a directory")
    else if !readableBy node.metadata s.uid s.gid then .error (complain "Permission denied")
    else
      match node.kind with
      | .file contents =>
        if contents = [] then
          .error ("gzip: stdin: unexpected end of file\ntar: Child returned status 1\n" ++
            "tar: Error is not recoverable: exiting now\n").toList
        else
          match tarParse contents with
          | none => .error foreign
          | some entries => .ok (contents, entries)
      | _ => .error foreign

/-- The loop of `tar -t`: the output, the messages, the width of the column and the leading part
warned about. -/
def listLoop (verbose : Bool) (out errs warned : Str) (ugswidth : ℕ) : List TarEntry → Str × Str
  | [] => (out, errs)
  | entry :: entries =>
    let stripped := tarStripLeading entry.name warned errs
    if verbose then
      let line := tarLongEntry entry ugswidth
      listLoop verbose (out ++ line.1) stripped.2.2 stripped.2.1 line.2 entries
    else
      listLoop verbose (out ++ entry.name ++ ['\n']) stripped.2.2 stripped.2.1 ugswidth entries

/-- The least width of the column of owner and size. -/
def tarUgswidth : ℕ := 18

/-- `tar -t`. -/
def list (verbose : Bool) (archivePath : Str) (members : List Str) (s : Shell) : CommandResult :=
  match openArchive archivePath s with
  | .error message => .err message 2
  | .ok (_, entries) =>
    let listed := listLoop verbose [] [] [] tarUgswidth
      (entries.filter fun entry ↦ tarSelected entry.name members)
    .streams listed.1 listed.2 0

/-- `tar -x`. -/
def extract (verbose : Bool) (archivePath : Str) (members : List Str) (s : Shell) :
    Shell × CommandResult :=
  match openArchive archivePath s with
  | .error message => (s, .err message 2)
  | .ok (data, entries) =>
    let e := extractAll now s data verbose members entries ⟨s.vfs, [], [], 0, []⟩
    let errs := if e.status ≠ 0 then
        e.errs ++ "tar: Exiting with failure status due to previous errors\n".toList
      else e.errs
    ({ s with vfs := e.vfs }, .streams e.out errs e.status)

/-- `tar [OPTION]... [-f ARCHIVE] [FILE]...` -/
def tar (args : List Str) (s : Shell) : Shell × CommandResult :=
  match Options.start.parse args with
  | .error bad =>
    (s, .err ("tar: invalid option -- '".toList ++ [bad] ++
      "'\nTry 'tar --help' or 'tar --usage' for more information.\n".toList) 2)
  | .ok o =>
    match o.archive.or o.members.head? with
    | none =>
      (s, .err (("tar: refusing to read archive contents from terminal (missing -f option?)\n" ++
        "tar: Error is not recoverable: exiting now\n").toList) 2)
    | some archivePath =>
      let members := if o.archive.isNone then o.members.tail else o.members
      if o.create then create now o.verbose archivePath members s
      else if o.list then (s, list o.verbose archivePath members s)
      else if o.extract then extract now o.verbose archivePath members s
      else
        (s, .err (("tar: You must specify one of the '-Acdtrux', '--delete' or '--test-label' " ++
          "options\nTry 'tar --help' or 'tar --usage' for more information.\n").toList) 2)

end Command

end Tar

end Interp

end Mimic
