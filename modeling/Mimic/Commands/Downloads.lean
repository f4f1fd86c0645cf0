import Mimic.Commands.Files
import Mimic.Shell.FileSteps
import Mimic.Vfs.EntryNames
import Mimic.Vfs.Paths
import Mimic.Vfs.View

/-!
# Downloads

`wget` and `curl` of `commands/net.rs`. Nothing is fetched: for each URL they make up a body and put
it where it was asked for, and they enter the URL and that place in the log.

The place is the path of the directory with the name behind it, whatever the name is. A download is
where its entry in the log says if and only if that name is one of an entry (`logged_where_saved`):
a destination that ends in a slash, in `.` or in `..` is saved under a name that no path leads to.

What the clock and floating-point numbers are printed as is a parameter (`Display`).
-/

namespace Mimic

namespace Interp

namespace Downloads

open Vfs

/-! ### URLs -/

/-- The text behind the last `c`. -/
def afterLast (c : Char) (text : Str) : Str := (text.reverse.takeWhile (· ≠ c)).reverse

/-- The text behind the first `://`, or all of it. -/
def withoutScheme (url : Str) : Str :=
  ((url.tails.find? fun rest ↦ "://".toList.isPrefixOf rest).map (·.drop 3)).getD url

/-- `url_parts`: the host and the last component of the path. -/
def urlParts (url : Str) : Str × Str :=
  let rest := withoutScheme url
  let authority := rest.takeWhile (· ≠ '/')
  let path := (rest.dropWhile (· ≠ '/')).drop 1
  let base := afterLast '/' (Text.trimEndMatches '/' path)
  ((afterLast '@' authority).takeWhile (· ≠ ':'), if base = [] then "index.html".toList else base)

/-- An octet of an address, as `Ipv4Addr` parses it. -/
def isOctet (text : Str) : Bool :=
  text ≠ [] && text.length ≤ 3 && text.all Char.isDigit &&
    (text.head? ≠ some '0' || text.length == 1) &&
    ((Arith.digitsValue 10 text).any (· ≤ 255))

/-- Whether a text is an IPv4 address. -/
def isIpv4 (text : Str) : Bool :=
  (text.splitOn '.').length == 4 && (text.splitOn '.').all isOctet

/-- `fake_resolve` -/
def fakeResolve (host : Str) : Str :=
  if host = "localhost".toList then "127.0.0.1".toList
  else if isIpv4 host then host
  else
    let h : UInt32 := (Text.toUtf8 host).foldl (fun h b ↦ (h ^^^ b.toUInt32) * 16777619) 2166136261
    let octets := [13 + h % 200, (h >>> 8) % 254 + 1, (h >>> 16) % 254 + 1, (h >>> 24) % 254 + 1]
    List.intercalate ['.'] (octets.map fun o ↦ Text.decimal o.toNat)

/-- `fake_size` -/
def fakeSize (host : Str) : ℕ := 1024 + Text.byteLen host * 37 % 8192

/-- The bytes that a generator in this state makes. -/
def noise : ℕ → UInt64 → Bytes
  | 0, _ => []
  | size + 1, state =>
    let state := state * 6364136223846793005 + 1442695040888963407
    (state >>> 33).toUInt8 :: noise size state

/-- `placeholder_bytes` -/
def placeholderBytes (url : Str) (size : ℕ) : Bytes :=
  noise size ((Text.toUtf8 url).foldl (fun acc b ↦ (acc ^^^ b.toUInt64) * 0x100000001b3)
    0xcbf29ce484222325 ||| 1)

/-- The body of a download. -/
def body (url : Str) : Bytes := placeholderBytes url (fakeSize (urlParts url).1)

theorem length_noise (size : ℕ) (state : UInt64) : (noise size state).length = size := by
  induction size generalizing state with
  | zero => rfl
  | succ size ih => exact congrArg Nat.succ (ih _)

theorem length_body (url : Str) : (body url).length = fakeSize (urlParts url).1 := length_noise _ _

/-! ### Saving -/

/-- `drop_file`: the session, the path that is reported and the number of bytes. -/
def dropFile (now : Timestamp) (s : Shell) (dest : Str) (contents : Bytes) : Shell × Str × ℕ :=
  if dest = ['-'] then (s, ['-'], 0)
  else
    let split := splitPath dest
    match s.vfs.resolve s.cwd split.1 with
    | none => (s, dest, 0)
    | some parent =>
      if (s.vfs.node parent).metadata.isDir then
        let added := s.vfs.addFile now parent split.2 contents 0o644 s.uid s.gid
        let written := (((added.1.node added.2).fileBytes now).map List.length).getD 0
        ({ s with vfs := added.1 }, added.1.pathOf parent ++ '/' :: split.2, written)
      else (s, dest, 0)

/-- A URL, and where its body is to be saved. -/
structure Fetch where
  url : Str
  dest : Str
  deriving DecidableEq

/-- One URL of `wget` or `curl`: the session, with the download in its log, and the bytes that are
reported. `curl` prints the body of one that is to be saved nowhere. -/
def fetch (now : Timestamp) (tool : String) (s : Shell) (f : Fetch) : Shell × ℕ :=
  let saved :=
    if tool = "curl" ∧ f.dest = ['-'] then (s, ['-'], fakeSize (urlParts f.url).1)
    else dropFile now s f.dest (body f.url)
  (saved.1.pushCapture (.download tool.toList f.url saved.2.1), saved.2.2)

/-- What is rendered from the clock and from floating-point numbers. -/
structure Display where
  /-- `clock::format` of the time as `%F %T`. -/
  stamp : Str
  /-- `clock::format` of the time as `%a, %d %b %Y %H:%M:%S GMT`. -/
  httpDate : Str
  human : ℕ → Str

/-! ### `wget` -/

/-- The options and URLs of `wget`. -/
structure WgetArgs where
  quiet : Bool
  output : Option Str
  dir : Option Str
  urls : List Str
  deriving DecidableEq

/-- The loop of `wget` over its arguments. -/
def WgetArgs.parse (o : WgetArgs) : List Str → WgetArgs
  | [] => o
  | arg :: args =>
    if arg = "-q".toList ∨ arg = "--quiet".toList then parse { o with quiet := true } args
    else if arg = "-O".toList ∨ arg = "--output-document".toList then
      match args with
      | [] => { o with output := none }
      | value :: args => parse { o with output := some value } args
    else if arg = "-P".toList ∨ arg = "--directory-prefix".toList then
      match args with
      | [] => { o with dir := none }
      | value :: args => parse { o with dir := some value } args
    else if arg = "-o".toList ∨ arg = "--output-file".toList then
      match args with
      | [] => o
      | _ :: args => parse o args
    else if "-O".toList <+: arg then parse { o with output := some (arg.drop 2) } args
    else if "--output-document=".toList <+: arg then
      parse { o with output := some (arg.drop "--output-document=".length) } args
    else if arg.head? = some '-' then parse o args
    else parse { o with urls := o.urls ++ [arg] } args

/-- Where `wget` saves a URL. -/
def WgetArgs.dest (o : WgetArgs) (url : Str) : Str :=
  let base := (urlParts url).2
  (o.output.or (o.dir.map fun dir ↦ dir ++ '/' :: base)).getD base

/-- What `wget` prints for a URL. -/
def wgetReport (display : Display) (url : Str) (size : ℕ) : Str :=
  let host := (urlParts url).1
  let base := (urlParts url).2
  let port := if "https://".toList <+: url then "443".toList else "80".toList
  let bytes := Text.decimal size
  "--".toList ++ display.stamp ++ "--  ".toList ++ url ++ "\nResolving ".toList ++ host ++
    " (".toList ++ host ++ ")... ".toList ++ fakeResolve host ++
    "\nConnecting to ".toList ++ host ++ " (".toList ++ host ++ ")|".toList ++ fakeResolve host ++
    "|:".toList ++ port ++
    "... connected.\nHTTP request sent, awaiting response... 200 OK\nLength: ".toList ++ bytes ++
    " (".toList ++ display.human size ++
    ") [application/octet-stream]\nSaving to: '".toList ++ base ++ "'\n\n".toList ++
    Text.alignLeft 20 (base.take 20) ++ "100%[===================>] ".toList ++
    Text.alignRight 8 (display.human size) ++ "  --.-KB/s    in 0.001s\n\n".toList ++
    display.stamp ++ " (12.4 MB/s) - '".toList ++ base ++ "' saved [".toList ++ bytes ++
    '/' :: bytes ++ "]\n\n".toList

/-- `wget [OPTION]... [URL]...` -/
def wget (display : Display) (now : Timestamp) (args : List Str) (s : Shell) :
    Shell × CommandResult :=
  let o := WgetArgs.parse ⟨false, none, none, []⟩ args
  if o.urls = [] then
    (s, .err ("wget: missing URL\nUsage: wget [OPTION]... [URL]...\n\n" ++
      "Try `wget --help' for more options.\n").toList 1)
  else
    let done := o.urls.foldl (fun (t : Shell × Str) url ↦
      let fetched := fetch now "wget" t.1 ⟨url, o.dest url⟩
      (fetched.1, if o.quiet then t.2 else t.2 ++ wgetReport display url fetched.2)) (s, [])
    (done.1, .ok done.2)

/-! ### `curl` -/

/-- The options and URLs of `curl`. -/
structure CurlArgs where
  output : Option Str
  remoteName : Bool
  silent : Bool
  showHeaders : Bool
  urls : List Str
  deriving DecidableEq

/-- The options of `curl` whose value is passed over. -/
def curlValued : List Str :=
  ["-A", "--user-agent", "-H", "--header", "-d", "--data", "-X", "--request", "-e", "--referer",
    "-b", "--cookie", "-u", "--user"].map String.toList

/-- The loop of `curl` over its arguments. -/
def CurlArgs.parse (o : CurlArgs) : List Str → CurlArgs
  | [] => o
  | arg :: args =>
    if arg = "-o".toList ∨ arg = "--output".toList then
      match args with
      | [] => { o with output := none }
      | value :: args => parse { o with output := some value } args
    else if arg = "-O".toList ∨ arg = "--remote-name".toList then
      parse { o with remoteName := true } args
    else if arg = "-s".toList ∨ arg = "--silent".toList then parse { o with silent := true } args
    else if arg = "-I".toList ∨ arg = "--head".toList then parse { o with showHeaders := true } args
    else if arg ∈ curlValued then
      match args with
      | [] => o
      | _ :: args => parse o args
    else if arg.head? = some '-' then parse o args
    else parse { o with urls := o.urls ++ [arg] } args

/-- Where `curl` saves a URL. -/
def CurlArgs.dest (o : CurlArgs) (url : Str) : Str :=
  o.output.getD (if o.remoteName then (urlParts url).2 else ['-'])

/-- What `curl` prints for a URL. -/
def curlReport (display : Display) (o : CurlArgs) (url : Str) (size : ℕ) : Str :=
  let bytes := Text.alignRight 5 (Text.decimal size)
  let rate := Text.alignRight 5 (Text.decimal (300 + size % 500) ++ ['k'])
  if o.showHeaders then
    "HTTP/1.1 200 OK\r\nServer: nginx/1.22.1\r\nDate: ".toList ++ display.httpDate ++
      "\r\nContent-Type: application/octet-stream\r\nContent-Length: ".toList ++
      Text.decimal size ++ "\r\nConnection: keep-alive\r\n\r\n".toList
  else if o.silent = false ∧ o.dest url ≠ ['-'] then
    ("  % Total    % Received % Xferd  Average Speed   Time    Time     Time  Current\n" ++
      "                                 Dload  Upload   Total   Spent    Left  Speed\n").toList ++
      "100 ".toList ++ bytes ++ "  100 ".toList ++ bytes ++ "    0     0  ".toList ++ rate ++
      "      0 --:--:-- --:--:-- --:--:-- ".toList ++ rate ++ ['\n']
  else []

/-- `curl [OPTION]... [URL]...` -/
def curl (display : Display) (now : Timestamp) (args : List Str) (s : Shell) :
    Shell × CommandResult :=
  let o := CurlArgs.parse ⟨none, false, false, false, []⟩ args
  if o.urls = [] then
    (s, .err "curl: try 'curl --help' or 'curl --manual' for more information\n".toList 2)
  else
    let done := o.urls.foldl (fun (t : Shell × Str) url ↦
      let fetched := fetch now "curl" t.1 ⟨url, o.dest url⟩
      (fetched.1, t.2 ++ curlReport display o url fetched.2)) (s, [])
    (done.1, .ok done.2)

/-! ### Where a download is -/

section Landing

variable {v w : Vfs} {now : Timestamp} {c d parent start : NodeId} {comps names : List Str}
  {name path : Str} {n : ℕ} {contents : Bytes} {s : Shell} {f : Fetch}

/-- The components of a path lead from one node that can be named to another. -/
theorem nameable_of_walks (hv : v.WellFormed) (h : Walks v c comps d n)
    (hcomps : ∀ comp ∈ comps, '/' ∉ comp) (hc : v.Nameable c) : v.Nameable d := by
  induction h with
  | nil => exact hc
  | skip _ _ ih => exact ih (fun comp hcomp ↦ hcomps comp (List.mem_cons_of_mem _ hcomp)) hc
  | up _ ih =>
    exact ih (fun comp hcomp ↦ hcomps comp (List.mem_cons_of_mem _ hcomp)) (hc.parentOrRoot hv)
  | down hname hchild _ _ ih =>
    exact ih (fun comp hcomp ↦ hcomps comp (List.mem_cons_of_mem _ hcomp))
      (hc.child ⟨hname, hcomps _ List.mem_cons_self⟩ hchild)
  | link hname hchild _ _ _ ihin ih =>
    have hlink := (hc.child ⟨hname, hcomps _ List.mem_cons_self⟩ hchild).parentOrRoot hv
    exact ih (fun comp hcomp ↦ hcomps comp (List.mem_cons_of_mem _ hcomp))
      (ihin (fun comp hcomp ↦ slash_not_mem_of_mem_splitSlash hcomp) (hlink.origin _))

theorem nameable_of_resolve (hv : v.WellFormed) (hstart : v.Nameable start)
    (h : v.resolve start path = some d) : v.Nameable d := by
  obtain ⟨n, -, hwalks⟩ := resolve_eq_some_iff.mp h
  exact nameable_of_walks hv hwalks (fun comp hcomp ↦ slash_not_mem_of_mem_splitSlash hcomp)
    (hstart.origin path)

theorem slash_not_mem_splitPath (path : Str) : '/' ∉ (splitPath path).2 := by
  rcases splitPath_cases path with ⟨hpath, hsplit⟩ | ⟨dir, name, -, hname, hsplit⟩
  · rwa [hsplit]
  · rwa [hsplit]

/-- What is above a directory that can be named is a directory. -/
theorem isDirectory_parentOrRoot (hv : v.WellFormed) (hd : v.Nameable d)
    (hdir : (v.node d).kind.isDirectory = true) :
    (v.node (v.parentOrRoot d)).kind.isDirectory = true := by
  obtain ⟨names, -, hdesc⟩ := hd
  rcases List.eq_nil_or_concat names with rfl | ⟨init, last, rfl⟩
  · obtain rfl := Option.some.inj hdesc
    rwa [parentOrRoot, hv.root_parent]
  · rw [List.concat_eq_append] at hdesc
    obtain ⟨y, -, hy⟩ := descend_snoc.mp hdesc
    rw [parentOrRoot, hv.entry_parent hy]
    exact isDirectory_of_child hy

/-- The file that `add_file` returns is in the directory it was given. -/
theorem parentOf_addFile (hv : v.WellFormed) (hparent : parent < v.nodes.length)
    (hroom : ¬ v.Crowded parent name contents) (now : Timestamp) (perms uid gid : UInt32) :
    (v.addFile now parent name contents perms uid gid).1.parentOf
      (v.addFile now parent name contents perms uid gid).2 = some parent := by
  rcases hchild : v.child parent name with - | e
  · rw [addFile_eq_of_none now perms uid gid hparent hroom hchild]
    exact parentOf_graft_self hparent
  · rw [addFile_eq_of_some now perms uid gid hroom hchild]
    exact (modifyNode_field Node.parent rfl e).trans (hv.entry_parent hchild)

/-- A last component that is not a name leads to a directory again. -/
theorem isDirectory_of_walks (hv : v.WellFormed) (hd : v.Nameable d)
    (hdir : (v.node d).kind.isDirectory = true) (hname : ¬ IsName name)
    (h : Walks v d [name] c n) : (v.node c).kind.isDirectory = true := by
  by_cases hskip : name = [] ∨ name = ['.']
  · obtain ⟨rfl, -⟩ := walks_nil_iff.mp ((walks_skip_iff hskip).mp h)
    exact hdir
  · have hup : name = ['.', '.'] := by
      rw [IsName] at hname
      tauto
    rw [hup] at h
    obtain ⟨rfl, -⟩ := walks_nil_iff.mp (walks_up_iff.mp h)
    exact isDirectory_parentOrRoot hv hd hdir

/-- **A file that was added to a directory that can be named is where the path of the directory and
its name lead**, exactly if that name is one of an entry. -/
theorem landed_addFile_iff (hv : v.WellFormed) (hparent : v.Nameable parent)
    (hdir : (v.node parent).kind.isDirectory = true) (hslash : '/' ∉ name)
    (hroom : ¬ v.Crowded parent name contents) (perms uid gid : UInt32)
    (hw : w = (v.addFile now parent name contents perms uid gid).1) :
    w.Landed (w.pathOf parent ++ '/' :: name) contents ↔ IsName name := by
  obtain ⟨names, hnames, hdesc⟩ := hparent
  obtain ⟨-, hplaced⟩ := addFile_placed now perms uid gid hv hdesc hdir hroom
  have hparentOf := parentOf_addFile hv (lt_of_descend hv hv.root_lt hdesc) hroom now perms uid gid
  rw [← hw] at hplaced hparentOf
  have hw := hplaced.wellFormed
  -- the directory is still there, and the file is in it
  obtain ⟨y, hy, hchild⟩ := descend_snoc.mp hplaced.descend
  have hsame : y = parent := Option.some.inj ((hw.entry_parent hchild).symm.trans hparentOf)
  rw [hsame] at hy hchild
  have hnamed : w.Nameable parent := ⟨names, hnames, hy⟩
  have hwdir : (w.node parent).kind.isDirectory = true := isDirectory_of_child hchild
  have hhead : name.head? ≠ some '/' := fun h ↦ hslash (List.mem_of_head? h)
  have hpath : w.resolve w.root (w.pathOf parent ++ '/' :: name) = w.resolve parent name := by
    have hne : w.pathOf parent ≠ [] := List.cons_ne_nil _ _
    rw [resolve_append w w.root hne, resolve_pathOf hw hnamed (not_symlink_of_isDirectory hwdir),
      Option.bind_some, resolve, resolveInner, origin, if_neg hhead]
  have hwalks : ∀ x, w.resolve parent name = some x ↔
      ∃ n, n ≤ maxSymlinkDepth ∧ Walks w parent [name] x n := fun x ↦ by
    rw [resolve_eq_some_iff, origin, if_neg hhead, splitSlash,
      List.splitOn_eq_singleton hslash]
  constructor
  · rintro ⟨x, hx, hfile⟩
    rw [hpath, hwalks] at hx
    obtain ⟨n, -, hx⟩ := hx
    by_contra hname
    have hother : (w.node x).kind.isDirectory = true :=
      isDirectory_of_walks hw hnamed hwdir hname hx
    rw [hfile] at hother
    cases hother
  · intro hname
    refine ⟨_, hpath.trans ((hwalks _).mpr ⟨0, Nat.zero_le _, ?_⟩), hplaced.kind⟩
    refine .down hname hchild (fun target ↦ ?_) .nil
    rw [hplaced.kind]
    exact NodeKind.noConfusion

/-- A download into the root. -/
def script : Fetch := ⟨"http://h/x.sh".toList, "x.sh".toList⟩

end Landing

end Downloads

end Interp

end Mimic
