import Mimic.Vfs.WellFormed

/-!
# The content budget

`resident v` is what the arena really holds: the lengths of the contents of all regular files,
attached or not. The arena keeps a running total `contentBytes` instead and checks it against
`MAX_VFS_BYTES`.

The two are compared call by call. Every call moves both by the same amount, except that a dynamic
file written over a regular one drops the bytes of that file without giving them back
(`Call.lost`). So `contentBytes` exceeds `resident` by exactly what such calls have lost so far
(`contentBytes_run_calls`), from which both directions of the accounting are read off:

* it never **under**-counts (`contentBytes_run`), so the unchecked subtractions of `add_file` and
  `write_file` never underflow and the cap really bounds memory;
* it leaks nothing exactly as long as no dynamic file is written over a non-empty regular one
  (`contentBytes_le_resident_iff`). `add_file` gives the replaced bytes back and `add_dynamic_file`
  does not, so copying a file of `/proc` over an existing file shrinks the budget for good.
-/

namespace Mimic

open GuardedRun

namespace Vfs

variable {v w : Vfs} {id parent x c : NodeId} {name : Str} {f : Node → Node}

/-- The bytes of all regular files in the arena, tombstones included. -/
def resident (v : Vfs) : ℕ := (v.nodes.map fun n ↦ n.kind.contentLen).sum

/-! ### Resident bytes after writes -/

theorem getElem_eq_node (h : x < v.nodes.length) : v.nodes[x] = v.node x := by
  rw [node, List.getD_eq_getElem?_getD, List.getElem?_eq_getElem h, Option.getD_some]

/-- Resident bytes depend on the lengths of contents only. -/
theorem resident_congr (hlen : w.nodes.length = v.nodes.length)
    (h : ∀ x, (w.node x).kind.contentLen = (v.node x).kind.contentLen) :
    w.resident = v.resident := by
  rw [resident, resident]
  congr 1
  refine List.ext_getElem (by simpa using hlen) fun i hi hi' ↦ ?_
  rw [List.length_map] at hi hi'
  rw [List.getElem_map, List.getElem_map, getElem_eq_node hi, getElem_eq_node hi', h]

theorem resident_modifyNode (h : id < v.nodes.length) :
    (v.modifyNode id f).resident + (v.node id).kind.contentLen =
      v.resident + (f (v.node id)).kind.contentLen := by
  rw [← getElem_eq_node h, resident, resident, modifyNode]
  dsimp only
  generalize v.nodes = l at h ⊢
  induction l generalizing id with
  | nil => exact absurd h (Nat.not_lt_zero _)
  | cons n l ih =>
    cases id with
    | zero =>
      simp only [List.modify_zero_cons, List.map_cons, List.sum_cons, List.getElem_cons_zero]
      omega
    | succ id =>
      have := ih (Nat.lt_of_succ_lt_succ h)
      simp only [List.modify_succ_cons, List.map_cons, List.sum_cons, List.getElem_cons_succ]
      omega

theorem resident_modifyChildren {g : Std.ExtTreeMap Str NodeId → Std.ExtTreeMap Str NodeId} :
    (v.modifyChildren id g).resident = v.resident :=
  resident_congr length_modifyChildren
    (modifyNode_field (fun n ↦ n.kind.contentLen) (NodeKind.contentLen_mapChildren _ _))

theorem resident_graft {kind : NodeKind} {metadata : Metadata} :
    (v.graft parent name kind metadata).resident = v.resident + kind.contentLen := by
  rw [graft, resident_modifyChildren, resident, resident]
  simp

theorem resident_reattach {newParent : NodeId} {newName : Str} :
    (v.reattach id newParent newName).resident = v.resident :=
  resident_congr length_reattach (reattach_field (fun n ↦ n.kind.contentLen)
    (fun _ _ ↦ NodeKind.contentLen_mapChildren _ _) fun _ ↦ rfl)

theorem resident_setMtime {mtime : Timestamp} : (v.setMtime id mtime).resident = v.resident :=
  resident_congr length_modifyNode (modifyNode_field (fun n ↦ n.kind.contentLen) rfl)

/-- No node holds more than the arena does. -/
theorem contentLen_le_resident (v : Vfs) (x : NodeId) :
    (v.node x).kind.contentLen ≤ v.resident := by
  by_cases hx : x < v.nodes.length
  · rw [← getElem_eq_node hx]
    exact List.single_le_sum (fun _ _ ↦ Nat.zero_le _) _
      (List.mem_map_of_mem (List.getElem_mem hx))
  · rw [node_of_le (Nat.le_of_not_lt hx)]
    exact Nat.zero_le _

/-! ### The balance of one call -/

/-- The bytes a call drops without giving them back to the budget: a dynamic file written over a
regular one takes the place of its contents, and `content_bytes` is not told. -/
def Call.lost : Call → Vfs → ℕ
  | .mutator (.addDynamicFile _ parent name _ _ _ _), v =>
    ((v.child parent name).map fun id ↦ (v.node id).kind.contentLen).getD 0
  | _, _ => 0

/-- A balanced change: the counter and the resident bytes move together, up to `lost`, and the
counter stays under the cap. -/
structure Balances (v w : Vfs) (lost : ℕ) : Prop where
  moved : w.contentBytes + v.resident = v.contentBytes + w.resident + lost
  capped : v.contentBytes ≤ maxVfsBytes → w.contentBytes ≤ maxVfsBytes

theorem Balances.of_eq (hbytes : w.contentBytes = v.contentBytes) (hres : w.resident = v.resident) :
    Balances v w 0 :=
  ⟨by rw [hbytes, hres, Nat.add_zero], fun h ↦ hbytes ▸ h⟩

theorem Balances.refl (v : Vfs) : Balances v v 0 := .of_eq rfl rfl

/-- An insert of a payload without contents is balanced. -/
theorem balances_insert {kind : NodeKind} {metadata : Metadata} (hkind : kind.contentLen = 0) :
    Balances v (v.insert parent name kind metadata).1 0 := by
  rw [insert_eq]
  split
  · exact .refl v
  · exact .of_eq rfl (by rw [resident_graft, hkind, Nat.add_zero])

/-- **`add_file` is balanced**: an in-place overwrite gives back what the old file held. -/
theorem balances_addFile {now : Timestamp} {contents : Bytes} {perms uid gid : UInt32}
    (hv : v.WellFormed) (hp : parent < v.nodes.length) (hle : v.resident ≤ v.contentBytes) :
    Balances v (v.addFile now parent name contents perms uid gid).1 0 := by
  rw [addFile]
  dsimp only
  split
  · exact .refl v
  · rename_i hcap
    -- a new node only adds bytes, an existing one gives back those it held
    rcases hchild : v.child parent name with - | existing
    · rw [hchild, Option.map_none, Option.getD_none] at hcap
      dsimp only
      rcases hfull : v.isFull parent with - | -
      · have hins : v.insert parent name (.file contents) (Metadata.new now sIfReg perms uid gid) =
            (v.graft parent name (.file contents) (Metadata.new now sIfReg perms uid gid),
              v.nodes.length) := by rw [insert_eq, hfull, if_neg Bool.false_ne_true]
        rw [hins, if_pos (Nat.ne_of_gt hp)]
        refine ⟨?_, fun _ ↦ ?_⟩
        · show v.contentBytes + contents.length + v.resident = v.contentBytes +
            (v.graft parent name (.file contents) (Metadata.new now sIfReg perms uid gid)).resident
              + 0
          rw [resident_graft, NodeKind.contentLen]
          omega
        · show v.contentBytes + contents.length ≤ maxVfsBytes
          omega
      · have hins : v.insert parent name (.file contents) (Metadata.new now sIfReg perms uid gid) =
            (v, parent) := by rw [insert_eq, hfull, if_pos rfl]
        rw [hins, if_neg (not_not.2 rfl)]
        exact .refl v
    · rw [hchild, Option.map_some, Option.getD_some] at hcap
      have hres : (v.modifyNode existing fun n ↦ { n with
          kind := .file contents, metadata := Metadata.new now sIfReg perms uid gid }).resident +
            (v.node existing).kind.contentLen = v.resident + contents.length :=
        resident_modifyNode (hv.entry_lt hchild)
      have hold := contentLen_le_resident v existing
      rw [Option.map_some, Option.getD_some]
      refine ⟨?_, fun _ ↦ Nat.le_of_not_lt hcap⟩
      show v.contentBytes - (v.node existing).kind.contentLen + contents.length + v.resident =
        v.contentBytes + (v.modifyNode existing _).resident + 0
      omega

theorem balances_writeFile {now : Timestamp} {data : Bytes} {append : Bool}
    (hid : id < v.nodes.length) (hle : v.resident ≤ v.contentBytes) :
    Balances v (v.writeFile now id data append).1 0 := by
  rw [writeFile]
  split
  · rename_i contents hkind
    have hlen : (if append = true then contents ++ data else data).length =
        if append = true then contents.length + data.length else data.length := by
      split <;> simp
    dsimp only
    generalize (if append = true then contents.length + data.length else data.length) = newLen
      at hlen ⊢
    generalize (if append = true then contents ++ data else data) = bytes at hlen ⊢
    split
    · exact .refl v
    · rename_i hcap
      have hold := contentLen_le_resident v id
      rw [hkind, NodeKind.contentLen] at hold
      refine ⟨?_, fun _ ↦ Nat.le_of_not_lt hcap⟩
      have hres := resident_modifyNode hid (f := fun n ↦ { n with
        kind := .file bytes, metadata := { n.metadata with mtime := now } })
      rw [hkind] at hres
      change _ + contents.length = v.resident + bytes.length at hres
      show v.contentBytes - contents.length + newLen + v.resident = v.contentBytes +
        (v.modifyNode id fun n ↦ { n with
          kind := .file bytes, metadata := { n.metadata with mtime := now } }).resident + 0
      omega
  · exact .refl v

/-- **The balance of every call**: it moves the counter and the resident bytes together, up to the
bytes a dynamic file drops. -/
theorem Call.balances (a : Call) (h : a.InRange v) (hv : v.WellFormed)
    (hle : v.resident ≤ v.contentBytes) : Balances v (a.apply v) (a.lost v) := by
  rcases a with m | ⟨parent, name, target, metadata⟩
  · cases m with
    | mkdir now parent name perms uid gid =>
      rw [apply, Mutator.apply, Vfs.mkdir]
      split
      · exact .refl v
      · exact balances_insert rfl
    | addFile now parent name contents perms uid gid =>
      exact balances_addFile hv (h parent (by simp [Mutator.ids])) hle
    | addDynamicFile now parent name generator perms uid gid =>
      rw [apply, Mutator.apply, Vfs.addDynamicFile, lost]
      rcases hchild : v.child parent name with - | existing
      · exact balances_insert rfl
      -- what is overwritten here stays on the books, and that is what is lost
      · have hres : (v.modifyNode existing fun n ↦ { n with
            kind := .dynamicFile generator,
            metadata := Metadata.new now sIfReg perms uid gid }).resident +
              (v.node existing).kind.contentLen = v.resident + 0 :=
          resident_modifyNode (hv.entry_lt hchild)
        refine ⟨?_, id⟩
        show v.contentBytes + v.resident =
          v.contentBytes + (v.modifyNode existing _).resident + (v.node existing).kind.contentLen
        omega
    | writeFile now id data append =>
      exact balances_writeFile (h id (by simp [Mutator.ids])) hle
    | addSymlink now parent name target =>
      rw [apply, Mutator.apply, Vfs.addSymlink]
      split
      · exact .refl v
      · exact balances_insert rfl
    | touch now parent name uid gid =>
      rw [apply, Mutator.apply, Vfs.touch]
      split
      · exact .of_eq rfl resident_setMtime
      · have hadd : Balances v (v.addFile now parent name [] 0o644 uid gid).1 0 :=
          balances_addFile hv (h parent (by simp [Mutator.ids])) hle
        exact ⟨by rw [resident_setMtime]; exact hadd.moved, hadd.capped⟩
    | chmod id perms =>
      exact .of_eq rfl (resident_congr length_modifyNode
        (modifyNode_field (fun n ↦ n.kind.contentLen) rfl))
    | chown id uid gid =>
      exact .of_eq rfl (resident_congr length_modifyNode
        (modifyNode_field (fun n ↦ n.kind.contentLen) rfl))
    | setMtime id mtime => exact .of_eq rfl resident_setMtime
    | setAllMtimes ts =>
      exact .of_eq rfl (resident_congr (List.length_map _)
        (setAllMtimes_field (fun n ↦ n.kind.contentLen) fun _ ↦ rfl))
    | unlink parent name => exact .of_eq rfl resident_modifyChildren
    | rename id newParent newName =>
      rw [apply, Mutator.apply, rename_eq]
      split
      · exact .of_eq contentBytes_reattach resident_reattach
      · exact .refl v
  · rw [apply]
    have hins : Balances (v.unlink parent name).1
        ((v.unlink parent name).1.insert parent name (.symlink target) metadata).1 0 :=
      balances_insert rfl
    have hres : (v.unlink parent name).1.resident = v.resident := resident_modifyChildren
    have hmoved := hins.moved
    rw [hres] at hmoved
    exact ⟨hmoved, hins.capped⟩

/-! ### The balance of a run -/

theorem resident_new (now : Timestamp) : (new now).resident = 0 := rfl

/-- What every call keeps: a tree, whose counter covers its contents and stays under the cap. -/
structure Funded (v : Vfs) : Prop where
  wellFormed : v.WellFormed
  covered : v.resident ≤ v.contentBytes
  capped : v.contentBytes ≤ maxVfsBytes

theorem funded_new (now : Timestamp) : (new now).Funded :=
  ⟨wellFormed_new now, Nat.zero_le _, Nat.zero_le _⟩

theorem Call.funded (a : Call) (h : a.InRange v) (hv : v.Funded) : (a.apply v).Funded := by
  have hbal := a.balances h hv.wellFormed hv.covered
  have hmoved := hbal.moved
  have hcovered := hv.covered
  exact ⟨(a.rewrites h).wellFormed hv.wellFormed, by omega, hbal.capped hv.capped⟩

theorem funded_run_calls {calls : List Call} (h : Admissible Call.apply Call.InRange v calls)
    (hv : v.Funded) : (run Call.apply v calls).Funded :=
  invariant_run h (fun a _ ha hs ↦ a.funded ha hs) hv

/-- **The counter exceeds the resident bytes by what has been lost so far.** -/
theorem contentBytes_run_calls {now : Timestamp} {calls : List Call}
    (h : Admissible Call.apply Call.InRange (new now) calls) :
    (run Call.apply (new now) calls).contentBytes =
      (run Call.apply (new now) calls).resident + total Call.apply Call.lost (new now) calls := by
  have hrun : (run Call.apply (new now) calls).contentBytes + (new now).resident =
      (new now).contentBytes + (run Call.apply (new now) calls).resident +
        total Call.apply Call.lost (new now) calls :=
    potential_run h (fun a _ ha hs ↦ a.funded ha hs)
      (fun a _ ha hs ↦ (a.balances ha hs.wellFormed hs.covered).moved) (funded_new now)
  rw [resident_new] at hrun
  change _ = 0 + _ + _ at hrun
  omega

/-- **The counter never under-counts.** After any run of public mutators with in-range ids from a
fresh arena, the counter covers the contents of all regular files and stays under `MAX_VFS_BYTES`.
The last part is about the calls the operations make on the way: before each of them, the length of
any node's contents can be subtracted from the counter. -/
theorem contentBytes_run (now : Timestamp) (ops : List Op)
    (h : Admissible Op.apply Op.InRange (new now) ops) :
    (run Op.apply (new now) ops).resident ≤ (run Op.apply (new now) ops).contentBytes ∧
      (run Op.apply (new now) ops).contentBytes ≤ maxVfsBytes ∧
      ∀ done rest, callsOf (new now) ops = done ++ rest →
        ∀ x, ((run Call.apply (new now) done).node x).kind.contentLen ≤
          (run Call.apply (new now) done).contentBytes := by
  have hcalls := admissible_callsOf h (wellFormed_new now)
  have hend := funded_run_calls hcalls (funded_new now)
  rw [← run_ops_eq_run_calls] at hend
  refine ⟨hend.covered, hend.capped, fun done rest hsplit x ↦ ?_⟩
  rw [hsplit, admissible_append] at hcalls
  exact (contentLen_le_resident _ x).trans (funded_run_calls hcalls.1 (funded_new now)).covered

/-- A run through every replace rule: file over file, over a directory and over a link, a dynamic
file over a file, an append, and a copy over an existing name. -/
theorem contentBytes_run_replacements :
    (run Op.apply (new 0) [
      .mutator (.addFile 0 0 "f".toList [1, 2, 3] 0o644 0 0),
      .mutator (.addFile 0 0 "f".toList [1] 0o644 0 0),
      .mkdirP 0 "/d".toList 0o755 0 0,
      .mutator (.addFile 0 0 "d".toList [4, 5] 0o644 0 0),
      .mutator (.addSymlink 0 0 "l".toList "d".toList),
      .mutator (.addFile 0 0 "l".toList [6] 0o644 0 0),
      .mutator (.writeFile 0 3 [7, 8] true),
      .mutator (.addDynamicFile 0 0 "f".toList (fun _ ↦ []) 0o444 0 0),
      .deepCopy 0 3 0 "d".toList]).contentBytes ≤ maxVfsBytes :=
  (contentBytes_run 0 _ (by decide +kernel)).2.1

/-- The call writes a dynamic file over a non-empty regular one. -/
def Call.DropsContents : Call → Vfs → Prop
  | .mutator (.addDynamicFile _ parent name _ _ _ _), v =>
    ∃ id ∈ v.child parent name, (v.node id).kind.contentLen ≠ 0
  | _, _ => False

theorem Call.lost_eq_zero_iff (a : Call) (v : Vfs) : a.lost v = 0 ↔ ¬ a.DropsContents v := by
  rcases a with m | ⟨parent, name, target, metadata⟩
  · cases m with
    | addDynamicFile now parent name generator perms uid gid =>
      rw [lost, DropsContents]
      rcases v.child parent name with - | existing <;> simp
    | _ => exact iff_of_true rfl id
  · exact iff_of_true rfl id

/-- **When the budget is given back.** After a run of public mutators the counter is at most the
bytes the arena holds if and only if no call of the run wrote a dynamic file over a non-empty
regular one. -/
theorem contentBytes_le_resident_iff (now : Timestamp) (ops : List Op)
    (h : Admissible Op.apply Op.InRange (new now) ops) :
    (run Op.apply (new now) ops).contentBytes ≤ (run Op.apply (new now) ops).resident ↔
      Admissible Call.apply (fun a v ↦ ¬ a.DropsContents v) (new now) (callsOf (new now) ops) := by
  have hcalls := admissible_callsOf h (wellFormed_new now)
  have hbal := contentBytes_run_calls hcalls
  rw [run_ops_eq_run_calls, hbal, add_le_iff_nonpos_right, Nat.le_zero, total_eq_zero_iff]
  simp only [Call.lost_eq_zero_iff]

/-- Replacing a file by a file leaks nothing. -/
theorem contentBytes_le_resident_overwritten :
    (run Op.apply (new 0) [
      .mutator (.addFile 0 0 "f".toList [1, 2, 3] 0o644 0 0),
      .mutator (.addFile 0 0 "f".toList [1] 0o644 0 0)]).contentBytes ≤
    (run Op.apply (new 0) [
      .mutator (.addFile 0 0 "f".toList [1, 2, 3] 0o644 0 0),
      .mutator (.addFile 0 0 "f".toList [1] 0o644 0 0)]).resident :=
  (contentBytes_le_resident_iff 0 _ (by decide +kernel)).2 ⟨id, id, trivial⟩

/-- `cp /proc/uptime f` over a file of one byte: the byte is gone and still counted. -/
theorem contentBytes_leaks :
    ¬ ∀ (now : Timestamp) (ops : List Op), Admissible Op.apply Op.InRange (new now) ops →
      (run Op.apply (new now) ops).contentBytes ≤ (run Op.apply (new now) ops).resident := by
  intro h
  refine absurd (h 0 [
    .mutator (.addDynamicFile 0 0 "uptime".toList (fun _ ↦ []) 0o444 0 0),
    .mutator (.addFile 0 0 "f".toList [65] 0o644 0 0),
    .deepCopy 0 1 0 "f".toList] (by decide +kernel)) ?_
  decide +kernel

end Vfs

end Mimic
