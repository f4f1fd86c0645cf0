import Mimic.Vfs.Nodes

/-!
# Listing entries

The parts of `commands/fs.rs` that render one entry of a directory in the long form of `ls`: sizes,
mode strings, owner names and dates. The SFTP server uses them too.
-/

namespace Mimic

namespace Listing

/-- The size a node reports. -/
def nodeSize (now : Timestamp) (node : Node) : ℕ :=
  match node.kind with
  | .file contents => contents.length
  | .dynamicFile generator => (generator now).length
  | .symlink target => (Text.toUtf8 target).length
  | .directory _ => 4096

/-- The `rwx` letters of three permission bits. -/
def rwx (bits : UInt32) : Str :=
  [if bits &&& 0o4 != 0 then 'r' else '-', if bits &&& 0o2 != 0 then 'w' else '-',
    if bits &&& 0o1 != 0 then 'x' else '-']

/-- The ten-character mode column. -/
def modeString (mode : UInt32) : Str :=
  let typeChar :=
    if mode &&& sIfMt = sIfDir then 'd' else if mode &&& sIfMt = sIfLnk then 'l' else '-'
  typeChar :: (rwx ((mode >>> 6) &&& 0o7) ++ rwx ((mode >>> 3) &&& 0o7) ++ rwx (mode &&& 0o7))

/-- The login name shown for a user id. -/
def uidName (uid : UInt32) : Str :=
  match uid.toNat with
  | 0 => "root".toList
  | 1 => "daemon".toList
  | 2 => "bin".toList
  | 3 => "sys".toList
  | 8 => "mail".toList
  | 33 => "www-data".toList
  | 34 => "backup".toList
  | 100 => "sshd".toList
  | 1000 => "user".toList
  | 65534 => "nobody".toList
  | other => Text.decimal other

/-- The group name shown for a group id. -/
def gidName (gid : UInt32) : Str :=
  match gid.toNat with
  | 0 => "root".toList
  | 4 => "adm".toList
  | 8 => "mail".toList
  | 27 => "sudo".toList
  | 33 => "www-data".toList
  | 34 => "backup".toList
  | 42 => "shadow".toList
  | 43 => "utmp".toList
  | 1000 => "user".toList
  | 65534 => "nogroup".toList
  | other => Text.decimal other

/-- Year, month and day of a day number counted from 1970-01-01. Division is the source's `/`, which
truncates. -/
def civilFromDays (days : ℤ) : ℤ × ℕ × ℕ :=
  let z := days + 719468
  let era := (if z ≥ 0 then z else z - 146096).tdiv 146097
  let doe := z - era * 146097
  let yoe := (doe - doe.tdiv 1460 + doe.tdiv 36524 - doe.tdiv 146096).tdiv 365
  let y := yoe + era * 400
  let doy := doe - (365 * yoe + yoe.tdiv 4 - yoe.tdiv 100)
  let mp := (5 * doy + 2).tdiv 153
  let d := (doy - (153 * mp + 2).tdiv 5 + 1).toNat
  let m := (if mp < 10 then mp + 3 else mp - 9).toNat
  (if m ≤ 2 then y + 1 else y, m, d)

/-- The month abbreviations. -/
def months : List Str :=
  ["Jan".toList, "Feb".toList, "Mar".toList, "Apr".toList, "May".toList, "Jun".toList,
    "Jul".toList, "Aug".toList, "Sep".toList, "Oct".toList, "Nov".toList, "Dec".toList]

/-- Half a mean year, the window called recent. -/
def sixMonths : ℤ := 15778800

/-- The date column: the time of day for a recent timestamp, the year for any other. -/
def formatTime (now ts : Timestamp) : Str :=
  let secs := (ts % 86400).toNat
  let civil := civilFromDays (ts / 86400)
  let mon := months.getD (civil.2.1 - 1) []
  let day := Text.alignRight 2 (Text.decimal civil.2.2)
  if ts > now + 3600 ∨ ts < now - sixMonths then
    mon ++ [' '] ++ day ++ [' ', ' '] ++ Text.decimalInt civil.1
  else
    mon ++ [' '] ++ day ++ [' '] ++ Text.twoDigits (secs / 3600) ++ [':'] ++
      Text.twoDigits (secs % 3600 / 60)

end Listing

end Mimic
