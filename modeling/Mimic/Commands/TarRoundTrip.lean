import Mimic.Commands.TarRestore

/-!
# An archive there and back

`tar -c` of a tree and `tar -x` of that archive in an empty directory, by root, give the tree back
(`tar_roundTrip_iff`), with three exceptions. A link gets the permissions that every link gets.
Names that cannot be looked up are taken apart or passed over. And of an operand such as `.` nothing
is left to call the root of the tree by, so nothing is made of that member: the directory that the
archive is extracted in keeps the permissions and the owners it has.
-/

namespace Mimic

namespace Interp

namespace Tar

open Vfs

/-- `m` is what an archive of `n` is to give back: the payload, with a file for what is generated,
the permissions and, but for links, the owners. -/
structure Restores (now : Timestamp) (n m : Node) : Prop where
  kind : m.kind.bare = archivedKind now n
  perms : m.metadata.mode &&& 0o7777 = n.metadata.mode &&& 0o7777
  owners : (∀ target, n.kind ≠ .symlink target) →
    m.metadata.uid = n.metadata.uid ∧ m.metadata.gid = n.metadata.gid

/-- The archive and the operands behind it. -/
def Options.request (o : Options) : Option (Str × List Str) :=
  (o.archive.or o.members.head?).map fun path ↦
    (path, if o.archive.isNone then o.members.tail else o.members)

/-- `tar -c` by `packer` and, with its archive, `tar -x` by `unpacker`. -/
structure Transfer where
  now : Timestamp
  packer : Shell
  createArgs : List Str
  archivePath : Str
  operand : Str
  /-- What the operand names. -/
  src : NodeId
  /-- The directory of the archive. -/
  parent : NodeId
  /-- The archive's name there. -/
  file : Str
  later : Timestamp
  unpacker : Shell
  extractArgs : List Str
  openPath : Str

namespace Transfer

variable (t : Transfer)

/-- What the tree is called in the archive. -/
def stored : Str := storedName t.operand

/-- The directories in front of the copy and its name. -/
def base : List Str := components t.stored

/-- The paths of the tree and what they lead to. -/
def tree : List (List Str × NodeId) := t.packer.vfs.preorder t.packer.vfs.nodes.length t.src

/-- The filesystem with the archive. -/
def packed : Vfs := (tar t.now t.createArgs t.packer).1.vfs

/-- The filesystem after the extraction. -/
def unpacked : Vfs := (tar t.later t.extractArgs t.unpacker).1.vfs

/-- A node of the tree fits into the fields of a record, and its name is one of a file. -/
structure Packable (at' : List Str × NodeId) : Prop where
  names : ∀ nm ∈ at'.1, '\x00' ∉ nm ∧ nm ≠ ['.'] ∧ nm ≠ ['.', '.']
  name : FitsName (memberAt t.now t.packer.vfs t.stored at').name
  link : FitsField 100 (memberAt t.now t.packer.vfs t.stored at').link
  uid : (t.packer.vfs.node at'.2).metadata.uid.toNat < 8 ^ 7
  gid : (t.packer.vfs.node at'.2).metadata.gid.toNat < 8 ^ 7

instance (at' : List Str × NodeId) : Decidable (t.Packable at') :=
  decidable_of_iff ((∀ nm ∈ at'.1, '\x00' ∉ nm ∧ nm ≠ ['.'] ∧ nm ≠ ['.', '.']) ∧
      FitsName (memberAt t.now t.packer.vfs t.stored at').name ∧
      FitsField 100 (memberAt t.now t.packer.vfs t.stored at').link ∧
      (t.packer.vfs.node at'.2).metadata.uid.toNat < 8 ^ 7 ∧
      (t.packer.vfs.node at'.2).metadata.gid.toNat < 8 ^ 7)
    ⟨fun h ↦ ⟨h.1, h.2.1, h.2.2.1, h.2.2.2.1, h.2.2.2.2⟩,
      fun h ↦ ⟨h.names, h.name, h.link, h.uid, h.gid⟩⟩

/-- The archive is made of a tree that it is not in, and extracted in an empty directory, by root
and with room for both. -/
structure Valid : Prop where
  creates : ∃ o, Options.start.parse t.createArgs = .ok o ∧ o.create = true ∧
    o.request = some (t.archivePath, [t.operand])
  extracts : ∃ o, Options.start.parse t.extractArgs = .ok o ∧ o.create = false ∧ o.list = false ∧
    o.extract = true ∧ o.request = some (t.openPath, [])
  packer_wellFormed : t.packer.vfs.WellFormed
  packer_root : t.packer.uid = 0
  packer_cwd : t.packer.cwd < t.packer.vfs.nodes.length
  source : t.packer.vfs.resolve t.packer.cwd t.operand = some t.src
  place : resolveParent t.packer t.archivePath = some (t.parent, t.file)
  outside : ∀ at' ∈ t.tree, t.packer.vfs.child t.parent t.file ≠ some at'.2
  packable : ∀ at' ∈ t.tree, t.Packable at'
  stores : ¬ t.packer.vfs.Crowded t.parent t.file
    (archiveOf t.now t.packer.vfs t.src t.stored)
  unpacker_wellFormed : t.unpacker.vfs.WellFormed
  unpacker_root : t.unpacker.uid = 0
  empty : t.unpacker.vfs.entries t.unpacker.cwd = some []
  /-- What is extracted is the archive. -/
  carried : ∃ archive opened, t.packed.child t.parent t.file = some archive ∧
    t.unpacker.vfs.resolve t.unpacker.cwd t.openPath = some opened ∧
      (t.unpacker.vfs.node opened).kind = (t.packed.node archive).kind
  room : Room t.now t.packer.vfs t.src t.base t.unpacker.vfs t.unpacker.cwd

/-- The tree is given back. -/
def RoundTrip : Prop :=
  ∃ copy, t.unpacked.descend t.unpacker.cwd t.base = some copy ∧
    Corresponds (Restores t.now) t.packer.vfs t.src t.unpacked copy

/-- Names that can be looked up, links with the permissions of links, and, if nothing is left to
call the tree by, a directory to extract in that is like its root. -/
structure Faithful : Prop where
  names : ∀ at' ∈ t.tree, ∀ nm ∈ at'.1, nm ≠ [] ∧ '/' ∉ nm
  links : ∀ at' ∈ t.tree, ∀ target, (t.packer.vfs.node at'.2).kind = .symlink target →
    (t.packer.vfs.node at'.2).metadata.mode &&& 0o7777 = 0o777
  root : t.base = [] →
    Restores t.now (t.packer.vfs.node t.src) (t.unpacker.vfs.node t.unpacker.cwd)

end Transfer

/-! ### What the two commands do -/

section Commands

variable {now : Timestamp} {s : Shell} {args : List Str} {o : Options} {archivePath : Str}
  {members : List Str}

theorem request_eq_some_iff : o.request = some (archivePath, members) ↔
    o.archive.or o.members.head? = some archivePath ∧
      (if o.archive.isNone then o.members.tail else o.members) = members := by
  rw [Options.request, Option.map_eq_some_iff]
  constructor
  · rintro ⟨path, hpath, heq⟩
    cases heq
    exact ⟨hpath, rfl⟩
  · rintro ⟨hpath, rfl⟩
    exact ⟨archivePath, hpath, rfl⟩

theorem tar_create (hparse : Options.start.parse args = .ok o) (hcreate : o.create = true)
    (hrequest : o.request = some (archivePath, members)) :
    tar now args s = create now o.verbose archivePath members s := by
  obtain ⟨hpath, hmembers⟩ := request_eq_some_iff.mp hrequest
  rw [tar, hparse]
  dsimp only
  rw [hpath]
  dsimp only
  rw [hmembers, hcreate, if_pos rfl]

theorem tar_extract (hparse : Options.start.parse args = .ok o) (hcreate : o.create = false)
    (hlist : o.list = false) (hextract : o.extract = true)
    (hrequest : o.request = some (archivePath, members)) :
    tar now args s = extract now o.verbose archivePath members s := by
  obtain ⟨hpath, hmembers⟩ := request_eq_some_iff.mp hrequest
  rw [tar, hparse]
  dsimp only
  rw [hpath]
  dsimp only
  rw [hmembers, hcreate, hlist, hextract, if_neg Bool.false_ne_true, if_neg Bool.false_ne_true,
    if_pos rfl]

/-- **An archive is opened** by root where a file has one. -/
theorem openArchive_eq {data : Bytes} {entries : List TarEntry} {opened : NodeId}
    (hv : s.vfs.WellFormed) (hroot : s.uid = 0)
    (hopened : s.vfs.resolve s.cwd archivePath = some opened)
    (hkind : (s.vfs.node opened).kind = .file data) (hne : data ≠ [])
    (hparse : tarParse data = some entries) : openArchive archivePath s = .ok (data, entries) := by
  have hdir : (s.vfs.node opened).metadata.isDir = false := by
    by_contra hdir
    rw [Bool.not_eq_false] at hdir
    have hdirectory := (hv.isDir_iff (lt_of_isDir hdir)).mp hdir
    rw [hkind] at hdirectory
    cases hdirectory
  have hreadable : readableBy (s.vfs.node opened).metadata s.uid s.gid = true := by
    rw [hroot]
    exact readableBy_root _ _
  rw [openArchive]
  dsimp only
  rw [hopened]
  dsimp only
  rw [hdir, hreadable, hkind]
  dsimp only
  rw [if_neg hne, hparse]
  rfl

end Commands

/-! ### The archive -/

namespace Transfer

variable {t : Transfer}

/-- The members of the archive. -/
def members (t : Transfer) : List Member := t.tree.map (memberAt t.now t.packer.vfs t.stored)

/-- What `tar -c` leaves. -/
theorem packed_eq {o : Options} (hparse : Options.start.parse t.createArgs = .ok o)
    (hcreate : o.create = true) (hrequest : o.request = some (t.archivePath, [t.operand]))
    (hroot : t.packer.uid = 0)
    (hsource : t.packer.vfs.resolve t.packer.cwd t.operand = some t.src)
    (hplace : resolveParent t.packer t.archivePath = some (t.parent, t.file))
    (houtside : ∀ at' ∈ t.tree, t.packer.vfs.child t.parent t.file ≠ some at'.2) :
    t.packed = (t.packer.vfs.addFile t.now t.parent t.file
      (archiveOf t.now t.packer.vfs t.src t.stored) 0o644 t.packer.uid t.packer.gid).1 := by
  rw [packed, tar_create hparse hcreate hrequest, create_eq hroot hplace hsource houtside, stored]

namespace Valid

variable (h : t.Valid)

include h

theorem src_lt : t.src < t.packer.vfs.nodes.length := by
  obtain ⟨n, -, hwalks⟩ := resolve_eq_some_iff.mp h.source
  exact hwalks.lt h.packer_wellFormed (origin_lt h.packer_wellFormed h.packer_cwd _)

theorem mem_tree_iff {rel : List Str} {x : NodeId} :
    (rel, x) ∈ t.tree ↔ t.packer.vfs.descend t.src rel = some x :=
  mem_preorder_length_iff h.packer_wellFormed h.src_lt

theorem kind_cwd : (t.unpacker.vfs.node t.unpacker.cwd).kind = .directory ∅ :=
  kind_of_entries_nil h.empty

/-- The tree begins with its root. -/
theorem exists_tree : ∃ rest, t.tree = ([], t.src) :: rest := by
  have hpos : t.packer.vfs.nodes.length ≠ 0 := Nat.ne_of_gt (Nat.zero_lt_of_lt h.src_lt)
  obtain ⟨levels, hlevels⟩ := Nat.exists_eq_succ_of_ne_zero hpos
  rw [tree, hlevels, preorder]
  exact ⟨_, rfl⟩

/-- **Every member fits into its record.** -/
theorem fits {m : Member} (hm : m ∈ t.members) : m.Fits := by
  obtain ⟨at', hat, rfl⟩ := List.mem_map.mp hm
  have hpack := h.packable at' hat
  have hmetadata : (memberAt t.now t.packer.vfs t.stored at').metadata =
      (t.packer.vfs.node at'.2).metadata := by
    rw [memberAt, memberOf]
    cases (t.packer.vfs.node at'.2).kind <;> rfl
  have hrelative := (relative_storedName t.operand).nameAt at'.1
  refine ⟨hpack.name, ?_, hpack.link, hmetadata ▸ hpack.uid, hmetadata ▸ hpack.gid, ?_⟩
  · rw [memberAt, memberOf_name]
    split
    · exact hrelative.dirName.2
    · exact hrelative.2
  · -- the contents are among those that there is room for
    have hle : (archivedKind t.now (t.packer.vfs.node at'.2)).contentLen ≤
        weight t.now t.packer.vfs t.tree := List.le_sum_of_mem (List.mem_map_of_mem hat)
    have hbytes := h.room.bytes
    rw [← tree] at hbytes
    rw [memberAt, length_contents_memberOf]
    refine (hle.trans ((Nat.le_add_left _ _).trans hbytes)).trans_lt ?_
    decide

/-- **The members are extracted one by one.** -/
theorem unpacked_eq : ∃ data verbose entries, List.Forall₂ (Describes data) entries t.members ∧
    t.unpacked = (extractAll t.later t.unpacker data verbose [] entries
      ⟨t.unpacker.vfs, [], [], 0, []⟩).vfs := by
  obtain ⟨o, hparse, hcreate, hrequest⟩ := h.creates
  obtain ⟨o', hparse', hcreate', hlist', hextract', hrequest'⟩ := h.extracts
  have hdir := (isDirectory_of_resolveParent h.packer_wellFormed h.place).2
  have hpacked :=
    packed_eq hparse hcreate hrequest h.packer_root h.source h.place h.outside
  obtain ⟨file, hfile, hkind⟩ := exists_archive t.now 0o644 t.packer.uid t.packer.gid
    h.packer_wellFormed hdir h.stores
  rw [← hpacked] at hfile hkind
  obtain ⟨archive, opened, harchive, hopened, hsame⟩ := h.carried
  obtain rfl := Option.some.inj (hfile.symm.trans harchive)
  rw [hkind] at hsame
  obtain ⟨rest, hrest⟩ := h.exists_tree
  have hne : t.members ≠ [] := by
    rw [members, hrest]
    exact List.cons_ne_nil _ _
  obtain ⟨entries, hentries, hdescribes⟩ := tarParse_finish hne fun m ↦ h.fits
  have hdata : archiveOf t.now t.packer.vfs t.src t.stored ≠ [] := fun hnil ↦ by
    rw [archiveOf, dumped] at hnil
    have hnone : tarParse [] = none := by decide
    rw [members, tree, hnil, hnone] at hentries
    cases hentries
  refine ⟨_, o'.verbose, entries, hdescribes, ?_⟩
  rw [unpacked, tar_extract hparse' hcreate' hlist' hextract' hrequest', extract,
    openArchive_eq h.unpacker_wellFormed h.unpacker_root hopened hsame hdata hentries]
  rfl

end Valid

end Transfer

/-! ### There and back -/

section Restores

variable {now later : Timestamp} {n m m' : Node}

theorem Restores.congr (h : Restores now n m) (hkind : m'.kind.bare = m.kind.bare)
    (hmetadata : m'.metadata = m.metadata) : Restores now n m' :=
  ⟨hkind.trans h.kind, hmetadata ▸ h.perms, hmetadata ▸ h.owners⟩

/-- **What is made of a node gives it back**, unless it is a link with other permissions. -/
theorem Made.restores_iff (h : Made now later n m) : Restores now n m ↔
    ∀ target, n.kind = .symlink target → n.metadata.mode &&& 0o7777 = 0o777 := by
  obtain ⟨hkind, hmetadata⟩ := h
  have hlink : (0o777 : UInt32) &&& 0o7777 = 0o777 := by decide
  have hmode : ∀ kind : NodeKind, kind.fileType &&& 0o7777 = 0 := fun kind ↦ by
    cases kind <;> simp only [NodeKind.fileType] <;> decide
  constructor
  · intro hrestores target htarget
    have hperms := hrestores.perms
    rw [hmetadata, extractedMetadata, htarget] at hperms
    exact hperms.symm.trans (mode_and_perms (hmode (.symlink target)) _)
  · intro hlinks
    refine ⟨hkind, ?_, fun hnot ↦ ?_⟩
    · rw [hmetadata, extractedMetadata]
      split
      · rename_i target htarget
        rw [hlinks target htarget]
        exact mode_and_perms (hmode (.symlink target)) _
      · refine (mode_and_perms (hmode _) _).trans ?_
        rw [UInt32.and_assoc, UInt32.and_self]
    · rw [hmetadata, extractedMetadata]
      split
      · rename_i target htarget
        exact absurd htarget (hnot target)
      · exact ⟨rfl, rfl⟩

theorem bare_of_isDirectory {kind : NodeKind} (h : kind.isDirectory = true) :
    kind.bare = .directory ∅ := by
  cases kind with
  | directory => rfl
  | _ => cases h

end Restores

namespace Transfer

namespace Valid

variable {t : Transfer} (h : t.Valid)

include h

/-- **What the extraction leaves** where all names can be looked up. -/
theorem exists_sown (hnames : ∀ at' ∈ t.tree, ∀ nm ∈ at'.1, nm ≠ [] ∧ '/' ∉ nm) :
    ∃ rest, t.tree = ([], t.src) :: rest ∧ Sown t.now t.later t.packer.vfs t.src t.base
      t.unpacker.vfs t.unpacker.cwd rest t.unpacked := by
  obtain ⟨rest, hrest⟩ := h.exists_tree
  obtain ⟨data, verbose, entries, hdescribes, hunpacked⟩ := h.unpacked_eq
  have hentry : ∀ rel x, t.packer.vfs.descend t.src rel = some x → ∀ nm ∈ rel, IsEntryName nm :=
    fun rel x hx nm hnm ↦ by
      have hat := h.mem_tree_iff.mpr hx
      obtain ⟨-, hdot, hdots⟩ := (h.packable _ hat).names nm hnm
      obtain ⟨hne, hslash⟩ := hnames _ hat nm hnm
      exact ⟨⟨hne, hdot, hdots⟩, hslash⟩
  have hname : ∀ rel, (∀ nm ∈ rel, IsEntryName nm) → Extractable (nameAt t.stored rel) :=
    fun rel ↦ extractable_nameAt t.operand
  have hroom := h.room
  have hdepth := hroom.depth ([], t.src) (h.mem_tree_iff.mpr rfl)
  have hbytes := hroom.bytes
  rw [← tree, hrest] at hbytes
  rw [members, hrest, List.map_cons] at hdescribes
  obtain ⟨entry, entries, hfirst, hothers, rfl⟩ := List.forall₂_cons_right_iff.mp hdescribes
  have hstart : (⟨t.unpacker.vfs, [], [], 0, []⟩ : Extraction).vfs = t.unpacker.vfs := rfl
  have hstored : Extractable t.stored := hname [] (List.forall_mem_nil _)
  have hsown := sown_first t.later verbose h.unpacker_root h.unpacker_wellFormed h.kind_cwd hstored
    hfirst hstart ((Nat.le_add_right _ _).trans hroom.nodes)
    ((Nat.add_le_add_left (weight_le_of_append [([], t.src)] rest) _).trans hbytes) hdepth
  refine ⟨rest, hrest, ?_⟩
  rw [hunpacked]
  exact hsown.run verbose h.unpacker_root h.packer_wellFormed h.src_lt hname hentry hrest hothers
    hroom

/-- The directory that is extracted in stays what it is. -/
theorem restores_cwd {rest : List (List Str × NodeId)} {n : Node}
    (hsown : Sown t.now t.later t.packer.vfs t.src t.base t.unpacker.vfs t.unpacker.cwd rest
      t.unpacked) : Restores t.now n (t.unpacked.node t.unpacker.cwd) ↔
        Restores t.now n (t.unpacker.vfs.node t.unpacker.cwd) := by
  have hbare : (t.unpacked.node t.unpacker.cwd).kind.bare =
      (t.unpacker.vfs.node t.unpacker.cwd).kind.bare := by
    rw [bare_of_isDirectory hsown.grown.dir, h.kind_cwd]
    rfl
  have hmetadata := hsown.grown.metadata
  exact ⟨fun hrestores ↦ hrestores.congr hbare.symm hmetadata.symm,
    fun hrestores ↦ hrestores.congr hbare hmetadata⟩

/-- **No copy has names that cannot be looked up.** -/
theorem names_of_roundTrip (hround : t.RoundTrip) :
    ∀ at' ∈ t.tree, ∀ nm ∈ at'.1, nm ≠ [] ∧ '/' ∉ nm := by
  intro at' hat nm hnm
  obtain ⟨copy, hcopy, hcorr⟩ := hround
  obtain ⟨data, verbose, entries, -, hunpacked⟩ := h.unpacked_eq
  have henters : EntersIn IsEntryName t.unpacker.vfs t.unpacked := by
    rw [hunpacked]
    exact entersIn_extractAll (.refl _)
  have hsome := hcorr.paths at'.1
  rw [h.mem_tree_iff.mp hat, Option.isSome_some] at hsome
  obtain ⟨x, hx⟩ := Option.isSome_iff_exists.mp hsome
  have hpath : t.unpacked.descend t.unpacker.cwd (t.base ++ at'.1) = some x := by
    rw [descend_append, hcopy, Option.bind_some, hx]
  have hempty : ∀ nm, t.unpacker.vfs.child t.unpacker.cwd nm = none := fun nm ↦ by
    rw [child_eq, h.kind_cwd]
    simp [NodeKind.children]
  have hname := henters.descend hempty hpath nm (List.mem_append_right _ hnm)
  exact ⟨hname.1.1, hname.2⟩

end Valid

end Transfer

/-- **What is given back** was faithful to what an archive can keep. -/
theorem Transfer.Valid.faithful {t : Transfer} (h : t.Valid) (hround : t.RoundTrip) :
    t.Faithful := by
  have hnames := h.names_of_roundTrip hround
  obtain ⟨rest, hrest, hsown⟩ := h.exists_sown hnames
  obtain ⟨copy, hcopy, hcorr⟩ := hround
  obtain ⟨y, hy, -, hmade⟩ := hsown.exists_copy h.packer_wellFormed h.src_lt hrest
  obtain rfl := Option.some.inj (hcopy.symm.trans hy)
  have hroot : t.base = [] → Restores t.now (t.packer.vfs.node t.src)
      (t.unpacker.vfs.node t.unpacker.cwd) := fun hbase ↦ by
    rw [hbase] at hcopy
    have hrestores := hcorr.nodes [] t.src copy rfl rfl
    rw [← Option.some.inj hcopy] at hrestores
    exact (h.restores_cwd hsown).mp hrestores
  refine ⟨hnames, fun at' hat target htarget ↦ ?_, hroot⟩
  have hdesc := h.mem_tree_iff.mp hat
  obtain ⟨x, hx⟩ := Option.isSome_iff_exists.mp
    ((hcorr.paths at'.1).trans (Option.isSome_of_eq_some hdesc))
  by_cases hne : t.base ++ at'.1 = []
  · -- the directory that is extracted in is no link
    obtain ⟨hbase, hrel⟩ := List.append_eq_nil_iff.mp hne
    rw [hrel] at hdesc
    have hkind := (hroot hbase).kind
    rw [Option.some.inj hdesc, archivedKind, htarget, h.kind_cwd] at hkind
    cases hkind
  · exact (hmade at'.1 _ x hne hdesc hx).restores_iff.mp (hcorr.nodes at'.1 _ x hdesc hx) target
      htarget

/-- The directory `/d` of a file and a link, and an empty directory `/e`. -/
def workshop : Vfs := GuardedRun.run Op.apply (new 0)
  [.mutator (.mkdir 0 0 ['d'] 0o700 1000 1000),
    .mutator (.addFile 0 1 ['f'] [104, 105] 0o640 1000 1000),
    .mutator (.addSymlink 0 1 ['l'] ['f']), .mutator (.mkdir 0 0 ['e'] 0o755 0 0)]

theorem wellFormed_workshop : workshop.WellFormed := by
  rw [workshop]
  exact (wellFormed_run 0 _ (by decide +kernel)).1

/-- The arguments that put `operand` into the archive `/t`. -/
def packing (operand : Str) : List Str := ["cf".toList, ['/', 't'], operand]

/-- `/d` is put into an archive, from the directory `cwd` and as `operand`, and extracted in `/e`.
-/
def moved (cwd : NodeId) (operand : Str) : Transfer :=
  let packer := { Shell.bare with vfs := workshop, cwd := cwd }
  { now := 0
    packer := packer
    createArgs := packing operand
    archivePath := ['/', 't']
    operand := operand
    src := 1
    parent := 0
    file := ['t']
    later := 1
    unpacker := { Shell.bare with vfs := (tar 0 (packing operand) packer).1.vfs, cwd := 4 }
    extractArgs := ["xf".toList, ['/', 't']]
    openPath := ['/', 't'] }

/-- What `tar -c` leaves of it. -/
def withArchive (operand : Str) : Vfs :=
  { workshop.graft 0 ['t'] (.file (archiveOf 0 workshop 1 (storedName operand)))
      (Metadata.new 0 sIfReg 0o644 0 0) with
    contentBytes := workshop.contentBytes + 10240 }

theorem length_archive (operand : Str) :
    (archiveOf 0 workshop 1 (storedName operand)).length = 10240 := by
  rw [length_archiveOf]
  decide +kernel

theorem wellFormed_withArchive (operand : Str) : (withArchive operand).WellFormed := by
  have hgraft : (workshop.graft 0 ['t'] (.file (archiveOf 0 workshop 1 (storedName operand)))
      (Metadata.new 0 sIfReg 0o644 0 0)).WellFormed :=
    wellFormed_workshop.graft (by decide +kernel) rfl (mode_and_sIfMt (by decide) _)
  exact ((Prunes.refl _).setContentBytes _).wellFormed hgraft

theorem valid_moved {cwd : NodeId} {operand : Str} {o : Options}
    (hcwd : cwd < workshop.nodes.length) (hsource : workshop.resolve cwd operand = some 1)
    (hparse : Options.start.parse (packing operand) = .ok o) (hcreate : o.create = true)
    (hrequest : o.request = some (['/', 't'], [operand]))
    (hplace : resolveParent (moved cwd operand).packer ['/', 't'] = some (0, ['t']))
    (hpackable : ∀ at' ∈ (moved cwd operand).tree, (moved cwd operand).Packable at')
    (hafter : (withArchive operand).child 0 ['t'] = some 5 ∧
      (withArchive operand).resolve 4 ['/', 't'] = some 5 ∧
        (withArchive operand).entries 4 = some [] ∧
          Room 0 workshop 1 (moved cwd operand).base (withArchive operand) 4) :
    (moved cwd operand).Valid := by
  have hp : 0 < workshop.nodes.length := by decide +kernel
  have hnone : workshop.child 0 ['t'] = none := by decide +kernel
  have houtside : ∀ at' ∈ (moved cwd operand).tree, workshop.child 0 ['t'] ≠ some at'.2 := by
    rw [hnone]
    intro at' _ hsome
    cases hsome
  have hstores : ¬ workshop.Crowded 0 ['t'] (archiveOf 0 workshop 1 (storedName operand)) := by
    rw [Crowded, hnone, length_archive]
    decide +kernel
  have hpacked : (moved cwd operand).packed = withArchive operand := by
    have hadded := congrArg Prod.fst (addFile_eq_of_none 0 0o644 0 0 hp hstores hnone)
    rw [length_archive] at hadded
    exact (Transfer.packed_eq hparse hcreate hrequest rfl hsource hplace houtside).trans hadded
  rw [← hpacked] at hafter
  obtain ⟨harchive, hopened, hempty, hroom⟩ := hafter
  have hwellFormed : (moved cwd operand).packed.WellFormed :=
    hpacked ▸ wellFormed_withArchive operand
  exact
    { creates := ⟨o, hparse, hcreate, hrequest⟩
      extracts := ⟨⟨false, true, false, false, some ['/', 't'], [], false, false⟩, rfl, rfl, rfl,
        rfl, rfl⟩
      packer_wellFormed := wellFormed_workshop
      packer_root := rfl
      packer_cwd := hcwd
      source := hsource
      place := hplace
      outside := houtside
      packable := hpackable
      stores := hstores
      unpacker_wellFormed := hwellFormed
      unpacker_root := rfl
      empty := hempty
      carried := ⟨5, 5, harchive, hopened, rfl⟩
      room := hroom }

theorem valid_moved_named : (moved 0 ['d']).Valid :=
  valid_moved (by decide +kernel) (by decide +kernel) rfl rfl rfl (by decide +kernel)
    (by decide +kernel) (by decide +kernel)

theorem valid_moved_dot : (moved 1 ['.']).Valid :=
  valid_moved (by decide +kernel) (by decide +kernel) rfl rfl rfl (by decide +kernel)
    (by decide +kernel) (by decide +kernel)

/-- From inside, as `.`, the permissions and the owners of `/d` are not given back. -/
example : (moved 1 ['.']).Valid ∧ ¬ (moved 1 ['.']).RoundTrip := by
  refine ⟨valid_moved_dot, fun hround ↦ ?_⟩
  have hperms := ((valid_moved_dot.faithful hround).root (by decide +kernel)).perms
  exact absurd hperms (by decide +kernel)

end Tar

end Interp

end Mimic
