import Mimic.Commands.Files
import Mimic.Vfs.Traversal

/-!
# Modes and owners

`chmod`, `chown` and `chgrp` of `commands/fs.rs`. With `-R` each of them changes a node, then goes
over its entries and calls itself for them.

A mode specification clears some permissions and sets others (`computeMode_cases`), and so does an
owner with what a node belongs to. What is done once is done: a node that is in the trees of several
operands has what one change makes of it. So the commands come down to one change of the nodes they
come to, all at once, and the same command again changes nothing.
-/

namespace Mimic

namespace Interp

namespace Modes

open Vfs Files

/-! ### Mode specifications -/

/-- The operators of a clause. -/
def isOperator (c : Char) : Bool := c == '+' || c == '-' || c == '='

/-- The bits that belong to a class of users. -/
def whoBits (c : Char) : Option UInt32 :=
  if c = 'u' then some 0o4700 else if c = 'g' then some 0o2070 else if c = 'o' then some 0o1007
  else none

/-- The bits that a permission stands for, for all users. -/
def permBits (c : Char) : Option UInt32 :=
  if c = 'r' then some 0o444 else if c = 'w' then some 0o222
  else if c = 'x' ∨ c = 'X' then some 0o111 else if c = 's' then some 0o6000
  else if c = 't' then some 0o1000 else none

/-- The bits of all letters together. -/
def letterBits (bits : Char → Option UInt32) (letters : Str) : Option UInt32 :=
  letters.foldlM (fun acc c ↦ (bits c).map (acc ||| ·)) 0

/-- One clause of a symbolic mode. -/
def applyClause (mode : UInt32) (clause : Str) : Option UInt32 :=
  let who := clause.takeWhile fun c ↦ !isOperator c
  match clause.dropWhile fun c ↦ !isOperator c with
  | [] => none
  | op :: perms =>
    let whoMask := if who = [] ∨ 'a' ∈ who then some 0o7777 else letterBits whoBits who
    whoMask.bind fun whoMask ↦ (letterBits permBits perms).map fun bits ↦
      let effective := bits &&& whoMask
      if op = '+' then mode ||| effective
      else if op = '-' then mode &&& ~~~effective
      else mode &&& ~~~whoMask ||| effective

/-- `compute_mode`: what an octal or symbolic mode makes of the permissions. -/
def computeMode (spec : Str) (current : UInt32) : Option UInt32 :=
  if spec ≠ [] ∧ spec.all Char.isDigit then
    ((Arith.digitsValue 8 spec).filter (· < 2 ^ 32)).map fun m ↦ UInt32.ofNat m &&& 0o7777
  else ((spec.splitOn ',').foldlM applyClause current).map (· &&& 0o7777)

/-! ### `chmod` -/

/-- The permissions of a node. -/
def permsOf (v : Vfs) (id : NodeId) : UInt32 := (v.node id).metadata.mode &&& 0o7777

/-- `apply_chmod`, as many levels down as there are left. -/
def applyChmod (spec : Str) (recursive : Bool) : ℕ → Vfs → NodeId → UInt32 → Vfs
  | 0, v, _, _ => v
  | levels + 1, v, id, perms =>
    let v := v.chmod id perms
    if recursive && (v.node id).metadata.isDir then
      ((v.entries id).getD []).foldl (fun v e ↦
        applyChmod spec recursive levels v e.2 ((computeMode spec (permsOf v e.2)).getD perms)) v
    else v

/-- The options and operands of `chmod`. -/
def chmodArgs (recursive : Bool) (rest : List Str) : List Str → Bool × List Str
  | [] => (recursive, rest)
  | arg :: args =>
    if arg = "-R".toList ∨ arg = "--recursive".toList then chmodArgs true rest args
    else if arg = "-v".toList ∨ arg = "--verbose".toList ∨ arg = "-c".toList ∨ arg = "-f".toList
    then chmodArgs recursive rest args
    else chmodArgs recursive (rest ++ [arg]) args

/-- The loop of `chmod` over its operands, which stops at the first one if the mode is none. -/
def chmodLoop (spec : Str) (recursive : Bool) (p : Files.Progress) :
    List Str → Shell × CommandResult
  | [] => p.finish
  | path :: paths =>
    let v := p.shell.vfs
    match v.resolve p.shell.cwd path with
    | none =>
      chmodLoop spec recursive (p.fail (complaint "chmod: cannot access" path
        "No such file or directory")) paths
    | some id =>
      match computeMode spec (permsOf v id) with
      | none => (p.shell, .err ("chmod: invalid mode: '".toList ++ spec ++ "'\n".toList) 1)
      | some perms =>
        chmodLoop spec recursive
          (p.setVfs (applyChmod spec recursive (v.nodes.length + 1) v id perms)) paths

/-- `chmod [OPTION]... MODE FILE...` -/
def chmod (args : List Str) (s : Shell) : Shell × CommandResult :=
  let (recursive, rest) := chmodArgs false [] args
  match rest with
  | spec :: path :: paths => chmodLoop spec recursive (.start s) (path :: paths)
  | _ => (s, misses "chmod" "operand")

/-! ### `chown` and `chgrp` -/

/-- `str::parse::<u32>`. -/
def parseU32 (text : Str) : Option UInt32 :=
  ((parseUsize text).filter (· < 2 ^ 32)).map UInt32.ofNat

/-- The users that are known by name. -/
def userIds : List (String × UInt32) :=
  [("root", 0), ("daemon", 1), ("bin", 2), ("sys", 3), ("www-data", 33), ("nobody", 65534),
    ("debian", 1000)]

/-- The groups that are known by name. -/
def groupIds : List (String × UInt32) :=
  [("root", 0), ("daemon", 1), ("bin", 2), ("sys", 3), ("adm", 4), ("www-data", 33),
    ("shadow", 42), ("nogroup", 65534), ("debian", 1000)]

/-- A number, or a name of the table. -/
def lookupId (table : List (String × UInt32)) (name : Str) : Option UInt32 :=
  match parseU32 name with
  | some n => some n
  | none => (table.find? fun entry ↦ entry.1.toList = name).map Prod.snd

/-- `lookup_uid`. -/
def lookupUid (name : Str) : Option UInt32 := lookupId userIds name

/-- `lookup_gid`. -/
def lookupGid (name : Str) : Option UInt32 := lookupId groupIds name

/-- The owner and the group to set, each if it is to be changed. -/
structure Owner where
  uid : Option UInt32
  gid : Option UInt32
  deriving DecidableEq

/-- `parse_owner_spec`. -/
def parseOwnerSpec (spec tool : Str) : Option Owner :=
  if tool = "chgrp".toList then (lookupGid spec).map fun gid ↦ ⟨none, some gid⟩
  else
    let user := spec.takeWhile fun c ↦ c ≠ ':' ∧ c ≠ '.'
    let uid := if user = [] then some none else (lookupUid user).map some
    uid.bind fun uid ↦
      match spec.dropWhile fun c ↦ c ≠ ':' ∧ c ≠ '.' with
      | [] => some ⟨uid, none⟩
      -- `chown user:` means the group of that name
      | [_] => some ⟨uid, uid⟩
      | _ :: group => (lookupGid group).map fun gid ↦ ⟨uid, some gid⟩

/-- `apply_chown`, as many levels down as there are left. -/
def applyChown (owner : Owner) (recursive : Bool) : ℕ → Vfs → NodeId → Vfs
  | 0, v, _ => v
  | levels + 1, v, id =>
    let metadata := (v.node id).metadata
    let v := v.chown id (owner.uid.getD metadata.uid) (owner.gid.getD metadata.gid)
    if recursive && (v.node id).metadata.isDir then
      ((v.entries id).getD []).foldl (fun v e ↦ applyChown owner recursive levels v e.2) v
    else v

/-- The options and operands of `chown` and `chgrp`. -/
def chownArgs (recursive : Bool) (rest : List Str) : List Str → Bool × List Str
  | [] => (recursive, rest)
  | arg :: args =>
    if arg = "-R".toList ∨ arg = "--recursive".toList then chownArgs true rest args
    else if isOption arg then chownArgs recursive rest args
    else chownArgs recursive (rest ++ [arg]) args

/-- One operand of `chown` or `chgrp`. -/
def chownOne (tool : String) (owner : Owner) (recursive : Bool) (p : Files.Progress) (path : Str) :
    Files.Progress :=
  let v := p.shell.vfs
  match v.resolve p.shell.cwd path with
  | none => p.fail (complaint (tool ++ ": cannot access") path "No such file or directory")
  | some id =>
    if p.shell.uid ≠ 0 then
      p.fail (complaint (tool ++ ": changing ownership of") path "Operation not permitted")
    else p.setVfs (applyChown owner recursive (v.nodes.length + 1) v id)

/-- `chown_like`. -/
def chownLike (tool : String) (args : List Str) (s : Shell) : Shell × CommandResult :=
  let (recursive, rest) := chownArgs false [] args
  match rest with
  | spec :: path :: paths =>
    match parseOwnerSpec spec tool.toList with
    | none =>
      let what := if tool = "chgrp" then "group" else "user"
      (s, .err ((tool ++ ": invalid " ++ what ++ ": '").toList ++ spec ++ "'\n".toList) 1)
    | some owner => ((path :: paths).foldl (chownOne tool owner recursive) (.start s)).finish
  | _ => (s, misses tool "operand")

/-- `chown [-R] OWNER[:GROUP] FILE...` -/
def chown (args : List Str) (s : Shell) : Shell × CommandResult := chownLike "chown" args s

/-- `chgrp [-R] GROUP FILE...` -/
def chgrp (args : List Str) (s : Shell) : Shell × CommandResult := chownLike "chgrp" args s

/-! ### What a mode does -/

variable {spec : Str} {m : UInt32} {s : Shell} {v w : Vfs} {recursive : Bool} {x : NodeId}

/-- A change of bits that clears some and sets others, or that is none at all. -/
def ClearsAndSets (change : UInt32 → Option UInt32) : Prop :=
  (∀ m, change m = none) ∨ ∃ keep set : UInt32, ∀ m, change m = some (m &&& keep ||| set)

private theorem and_or_and_or (m k s k' s' : UInt32) :
    (m &&& k ||| s) &&& k' ||| s' = m &&& (k &&& k') ||| (s &&& k' ||| s') := by
  rw [← UInt32.toBitVec_inj]
  ext i
  simp only [UInt32.toBitVec_and, UInt32.toBitVec_or, BitVec.getElem_and, BitVec.getElem_or]
  grind

private theorem mask_mask (m k s M : UInt32) :
    (((m &&& k ||| s) &&& M) &&& k ||| s) &&& M = (m &&& k ||| s) &&& M := by
  rw [← UInt32.toBitVec_inj]
  ext i
  simp only [UInt32.toBitVec_and, UInt32.toBitVec_or, BitVec.getElem_and, BitVec.getElem_or]
  grind

theorem clearsAndSets_applyClause (clause : Str) :
    ClearsAndSets fun mode ↦ applyClause mode clause := by
  simp only [applyClause]
  rcases clause.dropWhile fun c ↦ !isOperator c with - | ⟨op, perms⟩
  · exact .inl fun _ ↦ rfl
  simp only
  rcases (if clause.takeWhile (fun c ↦ !isOperator c) = [] ∨
      'a' ∈ clause.takeWhile fun c ↦ !isOperator c then some 0o7777
    else letterBits whoBits (clause.takeWhile fun c ↦ !isOperator c)) with - | whoMask
  · exact .inl fun _ ↦ rfl
  rcases letterBits permBits perms with - | bits
  · exact .inl fun _ ↦ rfl
  refine .inr ?_
  simp only [Option.bind_some, Option.map_some, Option.some.injEq]
  by_cases hadd : op = '+'
  · exact ⟨-1, bits &&& whoMask, fun m ↦ by rw [if_pos hadd, UInt32.and_neg_one]⟩
  by_cases hsub : op = '-'
  · exact ⟨~~~(bits &&& whoMask), 0, fun m ↦ by rw [if_neg hadd, if_pos hsub, UInt32.or_zero]⟩
  · exact ⟨~~~whoMask, bits &&& whoMask, fun m ↦ by rw [if_neg hadd, if_neg hsub]⟩

theorem ClearsAndSets.foldlM {α : Type} {step : UInt32 → α → Option UInt32} (items : List α)
    (h : ∀ a ∈ items, ClearsAndSets fun mode ↦ step mode a) :
    ClearsAndSets fun mode ↦ items.foldlM step mode := by
  induction items with
  | nil => exact .inr ⟨-1, 0, fun m ↦ by simp⟩
  | cons a items ih =>
    have hrest := ih fun b hb ↦ h b (List.mem_cons_of_mem a hb)
    have hbind : ∀ m first, step m a = first → (a :: items).foldlM step m =
        first.bind fun init ↦ items.foldlM step init := by
      rintro m - rfl
      rfl
    rcases h a List.mem_cons_self with hnone | ⟨keep, set, hsome⟩
    · exact .inl fun m ↦ hbind m none (hnone m)
    rcases hrest with hnone' | ⟨keep', set', hsome'⟩
    · exact .inl fun m ↦ (hbind m _ (hsome m)).trans (hnone' _)
    · refine .inr ⟨keep &&& keep', set &&& keep' ||| set', fun m ↦ ?_⟩
      rw [← and_or_and_or]
      exact (hbind m _ (hsome m)).trans (hsome' _)

/-- **A mode specification is none for any permissions, or it clears some and sets others.** -/
theorem computeMode_cases (spec : Str) : (∀ m, computeMode spec m = none) ∨
    ∃ keep set : UInt32, ∀ m, computeMode spec m = some ((m &&& keep ||| set) &&& 0o7777) := by
  by_cases hoctal : spec ≠ [] ∧ spec.all Char.isDigit
  · have heq : ∀ m, computeMode spec m = ((Arith.digitsValue 8 spec).filter (· < 2 ^ 32)).map
        fun m ↦ UInt32.ofNat m &&& 0o7777 := fun _ ↦ if_pos hoctal
    rcases hvalue : (Arith.digitsValue 8 spec).filter (· < 2 ^ 32) with - | n
    · exact .inl fun m ↦ by rw [heq, hvalue]; rfl
    · exact .inr ⟨0, UInt32.ofNat n, fun m ↦ by
        rw [heq, hvalue, UInt32.and_zero, UInt32.zero_or]
        rfl⟩
  · have heq : ∀ m, computeMode spec m = ((spec.splitOn ',').foldlM applyClause m).map
        (· &&& 0o7777) := fun _ ↦ if_neg hoctal
    rcases ClearsAndSets.foldlM (spec.splitOn ',') fun clause _ ↦
      clearsAndSets_applyClause clause with hnone | ⟨keep, set, hsome⟩
    · exact .inl fun m ↦ (heq m).trans (congrArg (Option.map (· &&& 0o7777)) (hnone m))
    · exact .inr ⟨keep, set, fun m ↦
        (heq m).trans (congrArg (Option.map (· &&& 0o7777)) (hsome m))⟩

/-- The specification is one. -/
def IsMode (spec : Str) : Prop := ∀ m, (computeMode spec m).isSome = true

theorem isMode_of_eq_some {perms : UInt32} (h : computeMode spec m = some perms) : IsMode spec := by
  rcases computeMode_cases spec with hnone | ⟨keep, set, hsome⟩
  · rw [hnone] at h
    cases h
  · exact fun m ↦ Option.isSome_of_eq_some (hsome m)

/-- **The same mode again changes nothing.** -/
theorem computeMode_computeMode {perms : UInt32} (h : computeMode spec m = some perms) :
    computeMode spec perms = some perms ∧ perms &&& 0o7777 = perms := by
  rcases computeMode_cases spec with hnone | ⟨keep, set, hsome⟩
  · rw [hnone] at h
    cases h
  · obtain rfl := Option.some.inj ((hsome m).symm.trans h)
    rw [hsome, mask_mask, UInt32.and_assoc]
    exact ⟨rfl, rfl⟩

/-! ### `chmod` on a tree -/

/-- What a mode makes of a node. -/
def changeMode (spec : Str) (n : Node) : Node :=
  { n with metadata :=
      { n.metadata with
        mode := (n.metadata.mode &&& sIfMt) |||
          ((computeMode spec (n.metadata.mode &&& 0o7777)).getD 0 &&& 0o7777) } }

theorem or_perms_and_sIfMt (mode perms : UInt32) :
    ((mode &&& sIfMt ||| (perms &&& 0o7777)) &&& sIfMt) = mode &&& sIfMt :=
  mode_and_sIfMt (by rw [UInt32.and_assoc, UInt32.and_self]) perms

theorem keepsShape_changeMode (spec : Str) : KeepsShape (changeMode spec) where
  name _ := rfl
  parent _ := rfl
  kind _ := rfl
  typeBits n := or_perms_and_sIfMt n.metadata.mode _

theorem changeMode_changeMode (hspec : IsMode spec) (n : Node) :
    changeMode spec (changeMode spec n) = changeMode spec n := by
  obtain ⟨perms, hperms⟩ := Option.isSome_iff_exists.mp (hspec (n.metadata.mode &&& 0o7777))
  obtain ⟨htwice, hmask⟩ := computeMode_computeMode hperms
  have hmode : (changeMode spec n).metadata.mode = n.metadata.mode &&& sIfMt ||| perms := by
    show n.metadata.mode &&& sIfMt ||| ((computeMode spec _).getD 0 &&& 0o7777) = _
    rw [hperms, Option.getD_some, hmask]
  have htype := or_perms_and_sIfMt n.metadata.mode perms
  have hnew : (n.metadata.mode &&& sIfMt ||| (perms &&& 0o7777)) &&& 0o7777 = perms &&& 0o7777 :=
    mode_and_perms (by rw [UInt32.and_assoc]; exact UInt32.and_zero) perms
  rw [hmask] at htype hnew
  have hagain : (changeMode spec (changeMode spec n)).metadata.mode =
      (changeMode spec n).metadata.mode := by
    show (changeMode spec n).metadata.mode &&& sIfMt |||
      ((computeMode spec ((changeMode spec n).metadata.mode &&& 0o7777)).getD 0 &&& 0o7777) = _
    rw [hmode, htype, hnew, htwice, Option.getD_some, hmask]
  show { n with metadata := { n.metadata with mode := _ } } =
    { n with metadata := { n.metadata with mode := _ } }
  exact congrArg
    (fun mode ↦ ({ n with metadata := { n.metadata with mode := mode } } : Node)) hagain

theorem chmod_eq_modifyNode {perms d : UInt32} (hspec : IsMode spec)
    (h : perms = (computeMode spec (permsOf v x)).getD d) :
    v.chmod x perms = v.modifyNode x (changeMode spec) := by
  obtain ⟨perms', hperms⟩ := Option.isSome_iff_exists.mp (hspec (permsOf v x))
  have hnode : computeMode spec ((v.node x).metadata.mode &&& 0o7777) = some perms' := hperms
  refine modifyNode_congr ?_
  rw [changeMode, h, hperms, hnode]
  rfl

theorem spreads_applyChmod (hspec : IsMode spec) (recursive : Bool) (v : Vfs) :
    Spreads (changeMode spec) recursive v fun levels w x ↦
      applyChmod spec recursive levels w x ((computeMode spec (permsOf w x)).getD 0) where
  zero _ _ := rfl
  succ levels w x _ := by
    have hdefault : ∀ m d, (computeMode spec m).getD d = (computeMode spec m).getD 0 := by
      intro m d
      obtain ⟨perms, hperms⟩ := Option.isSome_iff_exists.mp (hspec m)
      rw [hperms]
      rfl
    rw [applyChmod, chmod_eq_modifyNode hspec rfl]
    simp only [hdefault]

/-! ### `chown` on a tree -/

/-- What an owner makes of a node. -/
def changeOwner (owner : Owner) (n : Node) : Node :=
  { n with metadata :=
      { n.metadata with
        uid := owner.uid.getD n.metadata.uid
        gid := owner.gid.getD n.metadata.gid } }

theorem keepsShape_changeOwner (owner : Owner) : KeepsShape (changeOwner owner) where
  name _ := rfl
  parent _ := rfl
  kind _ := rfl
  typeBits _ := rfl

theorem changeOwner_changeOwner (owner : Owner) (n : Node) :
    changeOwner owner (changeOwner owner n) = changeOwner owner n := by
  rcases owner with ⟨- | uid, - | gid⟩ <;> rfl

theorem spreads_applyChown (owner : Owner) (recursive : Bool) (v : Vfs) :
    Spreads (changeOwner owner) recursive v (applyChown owner recursive) where
  zero _ _ := rfl
  succ levels w x _ := by
    have hnode : w.chown x (owner.uid.getD (w.node x).metadata.uid)
        (owner.gid.getD (w.node x).metadata.gid) = w.modifyNode x (changeOwner owner) :=
      modifyNode_congr rfl
    rw [applyChown, hnode]

/-! ### The commands -/

/-- The nodes that the operands come to. -/
def touched (s : Shell) (recursive : Bool) (paths : List Str) : List NodeId :=
  paths.flatMap fun path ↦ ((s.vfs.resolve s.cwd path).map (s.vfs.reached recursive)).getD []

/-- The operands that lead nowhere. -/
def missing (s : Shell) (paths : List Str) : List Str :=
  paths.filter fun path ↦ (s.vfs.resolve s.cwd path).isNone

/-- What is complained about, and the exit status. -/
def complaints (what : String) (paths : List Str) : CommandResult :=
  .err (paths.flatMap fun path ↦ complaint what path "No such file or directory")
    (if paths = [] then 0 else 1)

theorem missing_append (s : Shell) (paths : List Str) (path : Str) :
    missing s (paths ++ [path]) =
      missing s paths ++ if (s.vfs.resolve s.cwd path).isNone then [path] else [] := by
  rw [missing, List.filter_append, List.filter_singleton, cond_eq_ite]
  rfl

theorem touched_append (s : Shell) (recursive : Bool) (paths : List Str) (path : Str) :
    touched s recursive (paths ++ [path]) = touched s recursive paths ++
      ((s.vfs.resolve s.cwd path).map (s.vfs.reached recursive)).getD [] := by
  rw [touched, List.flatMap_append, List.flatMap_singleton]
  rfl

/-- The session with these nodes changed. -/
def changed (s : Shell) (f : Node → Node) (ids : List NodeId) : Shell :=
  { s with vfs := s.vfs.mapNodes f ids }

/-- How far a command has come: these operands are done. -/
structure Done (s : Shell) (f : Node → Node) (what : String) (recursive : Bool) (paths : List Str)
    (p : Files.Progress) : Prop where
  shell : p.shell = changed s f (touched s recursive paths)
  out : p.out = (missing s paths).flatMap fun path ↦ complaint what path "No such file or directory"
  status : p.status = if missing s paths = [] then 0 else 1

section Loop

variable {f : Node → Node} {what : String} {paths : List Str} {path : Str} {p : Files.Progress}

theorem done_start : Done s f what recursive [] (.start s) where
  shell := by
    have hnone : s.vfs.mapNodes f [] = s.vfs := by
      refine eq_of_nodes rfl rfl fun x ↦ ?_
      rw [getElem?_mapNodes]
      simp only [List.not_mem_nil, if_false, Option.map_id']
    show s = { s with vfs := s.vfs.mapNodes f [] }
    rw [hnone]
  out := rfl
  status := rfl

theorem Done.sameShape (h : Done s f what recursive paths p) (hf : KeepsShape f)
    (htwice : ∀ n, f (f n) = f n) : SameShape s.vfs p.shell.vfs := by
  rw [h.shell]
  exact (SameShape.refl s.vfs).mapNodes hf htwice _

/-- An operand that leads nowhere. -/
theorem Done.fail (h : Done s f what recursive paths p) (hnone : s.vfs.resolve s.cwd path = none) :
    Done s f what recursive (paths ++ [path])
      (p.fail (complaint what path "No such file or directory")) := by
  have hmissing : missing s (paths ++ [path]) = missing s paths ++ [path] := by
    rw [missing_append, hnone]
    rfl
  refine ⟨?_, ?_, ?_⟩
  · rw [touched_append, hnone, Option.map_none, Option.getD_none, List.append_nil]
    exact h.shell
  · rw [hmissing, List.flatMap_append, List.flatMap_singleton, ← h.out]
    rfl
  · rw [hmissing, if_neg (List.append_ne_nil_of_right_ne_nil _ (List.cons_ne_nil _ _))]
    rfl

/-- An operand that leads to a node. -/
theorem Done.setVfs (h : Done s f what recursive paths p) (htwice : ∀ n, f (f n) = f n)
    (hsome : s.vfs.resolve s.cwd path = some x) :
    Done s f what recursive (paths ++ [path])
      (p.setVfs (p.shell.vfs.mapNodes f (s.vfs.reached recursive x))) := by
  have hmissing : missing s (paths ++ [path]) = missing s paths := by
    rw [missing_append, hsome]
    exact List.append_nil _
  refine ⟨?_, ?_, ?_⟩
  · rw [touched_append, hsome, Option.map_some, Option.getD_some, Files.Progress.setVfs, h.shell,
      changed, changed]
    exact congrArg (fun v ↦ ({ s with vfs := v } : Shell)) (mapNodes_mapNodes htwice s.vfs _ _)
  · rw [hmissing]
    exact h.out
  · rw [hmissing]
    exact h.status

theorem Done.finish (h : Done s f what recursive paths p) :
    p.finish = (changed s f (touched s recursive paths), complaints what (missing s paths)) := by
  rw [Files.Progress.finish, h.shell, h.out, h.status]
  rfl

end Loop

variable {paths : List Str}

/-- A session whose directory is there. -/
structure Placed (s : Shell) : Prop where
  wellFormed : s.vfs.WellFormed
  cwd_lt : s.cwd < s.vfs.nodes.length

theorem chmodLoop_eq (hs : Placed s) (hspec : IsMode spec) {done : List Str} {p : Files.Progress}
    (h : Done s (changeMode spec) "chmod: cannot access" recursive done p) :
    chmodLoop spec recursive p paths =
      (changed s (changeMode spec) (touched s recursive (done ++ paths)),
        complaints "chmod: cannot access" (missing s (done ++ paths))) := by
  induction paths generalizing done p with
  | nil =>
    rw [chmodLoop, List.append_nil]
    exact h.finish
  | cons path paths ih =>
    have hsame := h.sameShape (keepsShape_changeMode spec) (changeMode_changeMode hspec)
    have hcwd : p.shell.cwd = s.cwd := by rw [h.shell]; rfl
    rw [chmodLoop, List.append_cons, hcwd, hsame.resolve]
    rcases hres : s.vfs.resolve s.cwd path with - | x
    · exact ih (h.fail hres)
    · obtain ⟨perms, hperms⟩ := Option.isSome_iff_exists.mp (hspec (permsOf p.shell.vfs x))
      have hspread := (spreads_applyChmod hspec recursive s.vfs).eq_mapNodes hs.wellFormed
        (keepsShape_changeMode spec) (changeMode_changeMode hspec) hsame
        (lt_of_resolve hs.wellFormed hs.cwd_lt hres)
      simp only [hperms, Option.getD_some] at hspread ⊢
      rw [hsame.length, hspread]
      exact ih (h.setVfs (changeMode_changeMode hspec) hres)

theorem chmodLoop_of_not_isMode (hspec : ¬ IsMode spec) (p : Files.Progress) :
    (chmodLoop spec recursive p paths).1 = p.shell := by
  induction paths generalizing p with
  | nil => rfl
  | cons path paths ih =>
    rw [chmodLoop]
    rcases p.shell.vfs.resolve p.shell.cwd path with - | x
    · exact ih _
    rcases hmode : computeMode spec (permsOf p.shell.vfs x) with - | perms
    · simp only [hmode]
    · exact absurd (isMode_of_eq_some hmode) hspec

theorem foldl_chownOne (hs : Placed s) (hroot : s.uid = 0) (tool : String) (owner : Owner)
    {done : List Str} {p : Files.Progress}
    (h : Done s (changeOwner owner) (tool ++ ": cannot access") recursive done p) :
    (paths.foldl (chownOne tool owner recursive) p).finish =
      (changed s (changeOwner owner) (touched s recursive (done ++ paths)),
        complaints (tool ++ ": cannot access") (missing s (done ++ paths))) := by
  induction paths generalizing done p with
  | nil =>
    rw [List.append_nil]
    exact h.finish
  | cons path paths ih =>
    have hsame := h.sameShape (keepsShape_changeOwner owner) (changeOwner_changeOwner owner)
    have hcwd : p.shell.cwd = s.cwd := by rw [h.shell]; rfl
    have huid : ¬ p.shell.uid ≠ 0 := not_not.mpr (by rw [h.shell]; exact hroot)
    rw [List.foldl_cons, List.append_cons]
    refine ih ?_
    rw [chownOne, hcwd, hsame.resolve]
    rcases hres : s.vfs.resolve s.cwd path with - | x
    · exact h.fail hres
    · have hspread := (spreads_applyChown owner recursive s.vfs).eq_mapNodes hs.wellFormed
        (keepsShape_changeOwner owner) (changeOwner_changeOwner owner) hsame
        (lt_of_resolve hs.wellFormed hs.cwd_lt hres)
      simp only [if_neg huid, hsame.length, hspread]
      exact h.setVfs (changeOwner_changeOwner owner) hres

/-- **What `chmod` and `chown` do.** Exactly the nodes that the operands lead to are changed, with
`-R` all that are in their trees, and each of them is changed once. -/
theorem chmod_chown_eq (hs : Placed s) (paths : List Str) (hpaths : paths ≠ []) :
    (∀ args recursive spec, chmodArgs false [] args = (recursive, spec :: paths) → IsMode spec →
      chmod args s = (changed s (changeMode spec) (touched s recursive paths),
        complaints "chmod: cannot access" (missing s paths))) ∧
    (s.uid = 0 → ∀ tool args recursive spec owner,
      chownArgs false [] args = (recursive, spec :: paths) →
      parseOwnerSpec spec tool.toList = some owner →
      chownLike tool args s = (changed s (changeOwner owner) (touched s recursive paths),
        complaints (tool ++ ": cannot access") (missing s paths))) := by
  obtain ⟨path, paths, rfl⟩ := List.exists_cons_of_ne_nil hpaths
  refine ⟨fun args recursive spec hargs hspec ↦ ?_,
    fun hroot tool args recursive spec owner hargs howner ↦ ?_⟩
  · rw [chmod, hargs]
    exact chmodLoop_eq hs hspec done_start
  · rw [chownLike, hargs]
    simp only [howner]
    exact foldl_chownOne hs hroot tool owner done_start

/-- The session in the root of a small tree. -/
def shelfSession : Shell := { Shell.bare with vfs := shelf }

theorem placed_shelfSession : Placed shelfSession := ⟨wellFormed_shelf, by decide +kernel⟩

theorem chmod_chown_eq_shelf :
    ((chmod ["-R".toList, "go-rwx".toList, "/d".toList] shelfSession).1.vfs.nodes.map
      fun n ↦ n.metadata.mode &&& 0o7777) = [0o755, 0o700, 0o600, 0o700, 0o700] := by
  have hspec : IsMode "go-rwx".toList := isMode_of_eq_some (show computeMode _ 0 = some 0 by decide)
  rw [(chmod_chown_eq placed_shelfSession ["/d".toList] (List.cons_ne_nil _ _)).1 _ true
    "go-rwx".toList rfl hspec]
  decide +kernel

/-! ### The same command again -/

section Again

variable {f : Node → Node} {v : Vfs}

theorem sameShape_changed (hf : KeepsShape f) (htwice : ∀ n, f (f n) = f n) (ids : List NodeId) :
    SameShape s.vfs (changed s f ids).vfs := (SameShape.refl s.vfs).mapNodes hf htwice ids

theorem Placed.changed (hs : Placed s) (hf : KeepsShape f) (htwice : ∀ n, f (f n) = f n)
    (ids : List NodeId) : Placed (changed s f ids) where
  wellFormed := (sameShape_changed hf htwice ids).wellFormed hs.wellFormed
  cwd_lt := (sameShape_changed hf htwice ids).length.symm ▸ hs.cwd_lt

/-- **Paths lead where they led before**, and so do trees. -/
theorem changed_again (s : Shell) (hf : KeepsShape f) (htwice : ∀ n, f (f n) = f n)
    (recursive : Bool) (paths : List Str) :
    changed (changed s f (touched s recursive paths)) f
        (touched (changed s f (touched s recursive paths)) recursive paths) =
      changed s f (touched s recursive paths) ∧
    missing (changed s f (touched s recursive paths)) paths = missing s paths := by
  set ids := touched s recursive paths with hids
  have hsame : SameShape s.vfs (changed s f ids).vfs := sameShape_changed hf htwice ids
  have htouched : touched (changed s f ids) recursive paths = ids := by
    rw [hids]
    refine List.flatMap_congr fun path _ ↦ ?_
    have hreached : (changed s f ids).vfs.reached recursive = s.vfs.reached recursive :=
      funext fun x ↦ hsame.reached recursive x
    rw [← hids, hsame.resolve, hreached]
    rfl
  refine ⟨?_, ?_⟩
  · rw [htouched, changed, changed]
    refine congrArg (fun v ↦ ({ s with vfs := v } : Shell)) ?_
    rw [mapNodes_mapNodes htwice]
    exact mapNodes_congr (fun x ↦ by rw [List.mem_append, or_self]) s.vfs
  · refine List.filter_congr fun path _ ↦ ?_
    rw [hsame.resolve]
    rfl

end Again

theorem chmod_again (hs : Placed s) (args : List Str) :
    chmod args (chmod args s).1 = chmod args s := by
  rcases hargs : chmodArgs false [] args with ⟨recursive, rest⟩
  rcases rest with - | ⟨spec, - | ⟨path, paths⟩⟩
  · simp only [chmod, hargs]
  · simp only [chmod, hargs]
  simp only [chmod, hargs]
  by_cases hspec : IsMode spec
  · have hf := keepsShape_changeMode spec
    have htwice := changeMode_changeMode hspec
    obtain ⟨hshell, hmissing⟩ := changed_again s hf htwice recursive (path :: paths)
    rw [chmodLoop_eq hs hspec done_start]
    refine (chmodLoop_eq (hs.changed hf htwice _) hspec done_start).trans ?_
    rw [List.nil_append, hshell, hmissing]
  · rw [chmodLoop_of_not_isMode hspec]
    rfl

/-- A session that may not change owners. -/
theorem foldl_chownOne_of_ne (hroot : s.uid ≠ 0) (tool : String) (owner : Owner)
    (recursive : Bool) (paths : List Str) (p : Files.Progress) (hp : p.shell = s) :
    (paths.foldl (chownOne tool owner recursive) p).shell = s := by
  induction paths generalizing p with
  | nil => exact hp
  | cons path paths ih =>
    refine ih _ ?_
    rw [chownOne]
    rcases p.shell.vfs.resolve p.shell.cwd path with - | x
    · exact hp
    · simp only [if_pos (show p.shell.uid ≠ 0 from hp ▸ hroot)]
      exact hp

theorem chownLike_again (hs : Placed s) (tool : String) (args : List Str) :
    chownLike tool args (chownLike tool args s).1 = chownLike tool args s := by
  rcases hargs : chownArgs false [] args with ⟨recursive, rest⟩
  rcases rest with - | ⟨spec, - | ⟨path, paths⟩⟩
  · simp only [chownLike, hargs]
  · simp only [chownLike, hargs]
  rcases howner : parseOwnerSpec spec tool.toList with - | owner
  · simp only [chownLike, hargs, howner]
  simp only [chownLike, hargs, howner]
  by_cases hroot : s.uid = 0
  · have hf := keepsShape_changeOwner owner
    have htwice := changeOwner_changeOwner owner
    obtain ⟨hshell, hmissing⟩ := changed_again s hf htwice recursive (path :: paths)
    rw [foldl_chownOne hs hroot tool owner done_start]
    refine (foldl_chownOne (hs.changed hf htwice _) hroot tool owner done_start).trans ?_
    rw [List.nil_append, hshell, hmissing]
  · have hsame : ((path :: paths).foldl (chownOne tool owner recursive) (.start s)).finish.1 = s :=
      foldl_chownOne_of_ne hroot tool owner recursive _ (.start s) rfl
    rw [hsame]

/-- **The same command again changes nothing** and says the same. -/
theorem chmod_chown_again (hs : Placed s) (args : List Str) :
    chmod args (chmod args s).1 = chmod args s ∧
      ∀ tool, chownLike tool args (chownLike tool args s).1 = chownLike tool args s :=
  ⟨chmod_again hs args, fun tool ↦ chownLike_again hs tool args⟩

theorem chmod_chown_again_shelf :
    chmod ["-R".toList, "a=rX".toList, "/d".toList, "/d/s".toList]
        (chmod ["-R".toList, "a=rX".toList, "/d".toList, "/d/s".toList] shelfSession).1 =
      chmod ["-R".toList, "a=rX".toList, "/d".toList, "/d/s".toList] shelfSession :=
  (chmod_chown_again placed_shelfSession _).1

end Modes

end Interp

end Mimic
