import Mimic.Shell.Interp

/-!
# What `cat` and `xargs` build

`dispatch_inner` cuts the result of a handler when the handler is done, and till then the handler
holds all that it has built. `cat` of `commands/fs.rs` adds something for every operand, and `xargs`
looks at the length of its stdout only. So neither is bounded before the cut.
-/

namespace Mimic

namespace Interp

open Outcomes

/-- The bytes of both streams of a result. -/
def CommandResult.built (r : CommandResult) : ℕ := Text.byteLen r.output + Text.byteLen r.stderr

/-- The bytes of the arguments of a command. -/
def argsLen (args : List Str) : ℕ := (args.map Text.byteLen).sum

theorem argsLen_replicate (n : ℕ) (arg : Str) :
    argsLen (List.replicate n arg) = n * Text.byteLen arg := by
  rw [argsLen, List.map_replicate, List.sum_replicate, smul_eq_mul]

/-! ### `cat` -/

/-- Whether a session may read a node. -/
def readableBy (m : Metadata) (uid gid : UInt32) : Bool :=
  if uid = 0 then true
  else if uid = m.uid then m.mode &&& 0o400 != 0
  else if gid = m.gid then m.mode &&& 0o040 != 0
  else m.mode &&& 0o004 != 0

/-- `cat: `, the operand and a message. -/
def catError (arg : Str) (message : String) : Str :=
  "cat: ".toList ++ arg ++ ": ".toList ++ message.toList ++ ['\n']

section Cat

variable (now : Timestamp) (s : Shell)

/-- The loop of `cat` over its operands. -/
def catLoop (out errs : Str) (status : ℤ) : List Str → CommandResult
  | [] => .streams out errs status
  | arg :: args =>
    match s.vfs.resolve s.cwd arg with
    | none => catLoop out (errs ++ catError arg "No such file or directory") 1 args
    | some id =>
      if !readableBy (s.vfs.node id).metadata s.uid s.gid then
        catLoop out (errs ++ catError arg "Permission denied") 1 args
      else
        match (s.vfs.node id).fileBytes now with
        | some bytes => catLoop (out ++ Text.fromUtf8Lossy bytes) errs status args
        | none =>
          if (s.vfs.node id).metadata.isDir then
            catLoop out (errs ++ catError arg "Is a directory") 1 args
          else catLoop out errs status args

/-- `cat`. -/
def cat (args : List Str) : CommandResult :=
  if args = [] then .ok (s.stdin.getD []) else catLoop now s [] [] 0 args

/-- The bytes that `cat` adds for an operand. -/
def catSize (arg : Str) : ℕ :=
  match s.vfs.resolve s.cwd arg with
  | none => Text.byteLen (catError arg "No such file or directory")
  | some id =>
    if !readableBy (s.vfs.node id).metadata s.uid s.gid then
      Text.byteLen (catError arg "Permission denied")
    else
      match (s.vfs.node id).fileBytes now with
      | some bytes => Text.byteLen (Text.fromUtf8Lossy bytes)
      | none =>
        if (s.vfs.node id).metadata.isDir then Text.byteLen (catError arg "Is a directory") else 0

variable {now s}

theorem built_catLoop (out errs : Str) (status : ℤ) (args : List Str) :
    (catLoop now s out errs status args).built =
      Text.byteLen out + Text.byteLen errs + (args.map (catSize now s)).sum := by
  induction args generalizing out errs status with
  | nil => rfl
  | cons arg args ih =>
    rw [catLoop, List.map_cons, List.sum_cons, catSize]
    split
    · rw [ih, Text.byteLen_append]
      omega
    split
    · rw [ih, Text.byteLen_append]
      omega
    split
    · rw [ih, Text.byteLen_append]
      omega
    split
    · rw [ih, Text.byteLen_append]
      omega
    · rw [ih, Nat.zero_add]

/-- The same operand over and over. -/
theorem built_cat_replicate (n : ℕ) (arg : Str) :
    (cat now s (List.replicate (n + 1) arg)).built = (n + 1) * catSize now s arg := by
  rw [cat, if_neg (List.replicate_succ ▸ List.cons_ne_nil _ _), built_catLoop,
    List.map_replicate, List.sum_replicate]
  exact Nat.zero_add _

/-- There is a name that a directory has no entry for. -/
theorem exists_missing (v : Vfs) (dir : NodeId) : ∃ name, v.resolve dir name = none := by
  obtain ⟨n, hn⟩ := Infinite.exists_notMem_finset
    ((v.node dir).kind.children.keys.map fun name ↦ name.length - 1).toFinset
  have hchild : v.child dir (List.replicate (n + 1) 'a') = none := by
    rw [Vfs.child]
    cases hkind : (v.node dir).kind with
    | directory children =>
      refine Std.ExtTreeMap.getElem?_eq_none fun hmem ↦ hn ?_
      rw [hkind, List.mem_toFinset, List.mem_map]
      exact ⟨_, Std.ExtTreeMap.mem_keys.mpr hmem, by rw [List.length_replicate, Nat.add_sub_cancel]⟩
    | file | symlink | dynamicFile => rfl
  have hname : '/' ∉ List.replicate (n + 1) 'a' := fun hmem ↦
    absurd (List.eq_of_mem_replicate hmem) (by decide)
  have hsplit : Vfs.splitSlash (List.replicate (n + 1) 'a') = [List.replicate (n + 1) 'a'] :=
    List.splitOn_eq_singleton hname
  refine ⟨List.replicate (n + 1) 'a', ?_⟩
  rw [Vfs.resolve, Vfs.resolveInner, hsplit, Vfs.walkComps, if_neg, if_neg]
  · rw [Vfs.origin, if_neg (by simp [List.replicate_succ]), hchild]
  · simp [List.replicate_succ]
  · simp [List.replicate_succ]

theorem catSize_missing {name : Str} (h : s.vfs.resolve s.cwd name = none) :
    Text.byteLen name < catSize now s name := by
  rw [catSize, h]
  show _ < Text.byteLen ("cat: ".toList ++ name ++ ": ".toList ++ _ ++ ['\n'])
  simp only [Text.byteLen_append]
  have : Text.byteLen ['\n'] = 1 := rfl
  omega

theorem cat_unbounded (K : ℕ) : ∃ args, K + argsLen args < (cat now s args).built := by
  obtain ⟨name, hmissing⟩ := exists_missing s.vfs s.cwd
  refine ⟨List.replicate (K + 1) name, ?_⟩
  have := Nat.mul_le_mul_left (K + 1) (catSize_missing hmissing : _ < catSize now s name)
  rw [Nat.mul_succ] at this
  rw [argsLen_replicate, built_cat_replicate]
  omega

end Cat

/-! ### `xargs` -/

section Xargs

variable {host : Host} {below : Level}

/-- `exit` with two arguments does not exit, and prints a line. -/
theorem dispatch_exit_two (x y : Str) (ys : List Str) (s : Shell) :
    ensures (fun _ _ ↦ False) (dispatch host below ("exit".toList :: x :: y :: ys))
      (fun r _ ↦ r.output = [] ∧ 0 < Text.byteLen r.stderr) s := by
  have hinner : dispatchInner host below ("exit".toList :: x :: y :: ys) =
    (get >>= fun s ↦ pure (exitCmd s "exit".toList (x :: y :: ys)) : Run CommandResult) := rfl
  rw [dispatch, hinner]
  simp only [ensures_bind, ensures_get]
  split
  · exact ⟨rfl, by decide⟩
  · have hcmd : ∀ t, exitCmd t "exit".toList (x :: y :: ys) =
        .err "-bash: exit: too many arguments\n".toList 1 := fun _ ↦ rfl
    simp only [ensures_bind, ensures_get, ensures_pure, hcmd]
    exact ⟨rfl, by decide⟩

theorem xargsLoop_grows {n : ℕ} (errs : Str) (status : ℤ) (words : List Str) (s : Shell) :
    ensures (fun _ _ ↦ False)
      (xargsLoop (level host (n + 1)) ["exit".toList, "x".toList] [] errs status
        (words.map fun word ↦ [word]))
      (fun r _ ↦ Text.byteLen errs + words.length ≤ r.built) s := by
  induction words generalizing errs status s with
  | nil =>
    rw [List.map_nil, xargsLoop, ensures_pure]
    exact Nat.le_add_left _ _
  | cons word words ih =>
    rw [List.map_cons, xargsLoop, ensures_bind]
    refine ensures_mono (fun _ _ h ↦ h) ?_ (dispatch_exit_two "x".toList word [] s)
    rintro r t ⟨hout, herr⟩
    dsimp only
    rw [hout, List.append_nil, if_neg (by decide)]
    refine ensures_mono (fun _ _ h ↦ h) ?_ (ih _ _ t)
    intro r' u hle
    rw [Text.byteLen_append] at hle
    rw [List.length_cons]
    omega

theorem toChunks_one (words : List Str) : words.toChunks 1 = words.map fun word ↦ [word] := by
  have hgo : ∀ (words : List Str) (word : Str) (acc : Array (List Str)),
      List.toChunks.go 1 words #[word] acc =
        acc.toList ++ (word :: words).map fun word ↦ [word] := by
    intro words
    induction words with
    | nil =>
      intro word acc
      simp [List.toChunks.go]
    | cons next words ih =>
      intro word acc
      have hfull : (#[word].size == 1) = true := rfl
      rw [List.toChunks.go, if_pos hfull]
      refine (ih next (acc.push [word])).trans ?_
      simp
  cases words with
  | nil => rfl
  | cons word words => exact hgo words word #[]

theorem splitWhitespace_replicate (n : ℕ) :
    Text.splitWhitespace (List.replicate n ['y', ' ']).flatten = List.replicate n ['y'] := by
  induction n with
  | zero => rfl
  | succ n ih =>
    rw [List.replicate_succ, List.flatten_cons, List.replicate_succ, ← ih]
    have hy : Text.isWhitespace 'y' = false := by decide
    have hblank : Text.isWhitespace ' ' = true := by decide
    simp [Text.splitWhitespace, List.splitOnP_cons_eq_if_modifyHead, hy, hblank]

theorem xargs_unbounded (host : Host) (n : ℕ) (s : Shell) (K : ℕ) : ∃ args stdin r t,
    xargs (level host (n + 1)) args { s with stdin := some stdin } = (.ok r, t) ∧
      K + argsLen args < r.built := by
  let args := ["-n1".toList, "exit".toList, "x".toList]
  let stdin := (List.replicate (K + argsLen args + 1) ['y', ' ']).flatten
  refine ⟨args, stdin, returns_of_ensures ?_⟩
  have hargs : xargsArgs none args = (some 1, ["exit".toList, "x".toList]) := by decide
  rw [xargs, ensures_bind, ensures_get, hargs]
  dsimp only [Option.getD_some]
  rw [splitWhitespace_replicate, if_neg (List.replicate_succ ▸ List.cons_ne_nil _ _)]
  refine ensures_mono (fun _ _ h ↦ h) ?_
    (toChunks_one _ ▸ xargsLoop_grows [] 0 (List.replicate (K + argsLen args + 1) ['y']) _)
  intro r t hle
  rw [List.length_replicate] at hle
  omega

end Xargs

/-- **Neither handler is bounded before the cut.** In every session, and for every bound on what is
built beyond the arguments, there are operands with which `cat` breaks it, and words on the standard
input with which `xargs` does. -/
theorem handlers_unbounded (host : Host) (n : ℕ) (s : Shell) (K : ℕ) :
    (∃ args, K + argsLen args < (cat host.now s args).built) ∧
    ∃ args stdin r t,
      xargs (level host (n + 1)) args { s with stdin := some stdin } = (.ok r, t) ∧
        K + argsLen args < r.built :=
  ⟨cat_unbounded K, xargs_unbounded host n s K⟩

theorem handlers_not_bounded :
    (¬ ∃ K, ∀ args, (cat 0 Shell.bare args).built ≤ K + argsLen args) ∧
    ¬ ∃ K, ∀ s args r t, xargs (levels bareHost) args s = (.ok r, t) →
      r.built ≤ K + argsLen args := by
  constructor
  · rintro ⟨K, hle⟩
    obtain ⟨args, hlt⟩ : ∃ args, K + argsLen args < (cat 0 Shell.bare args).built :=
      cat_unbounded K
    exact absurd (hle args) (Nat.not_le_of_lt hlt)
  · rintro ⟨K, hle⟩
    obtain ⟨args, stdin, r, t, hr, hlt⟩ :=
      xargs_unbounded bareHost (maxNestedCommands - 1) Shell.bare K
    exact absurd (hle _ args r t hr) (Nat.not_le_of_lt hlt)

end Interp

end Mimic
