import Mimic.Commands.Accounts

/-!
# Passwords and the filesystem

`chpasswd` and the prompts of `passwd` are given passwords in clear. What they do to the filesystem
depends on whom a password is for, and not on the password: two runs that differ in passwords alone
go through the same filesystems (`secrets_stay_out`).

The sessions of the two runs do differ, in their captures. So they are compared by what the account
commands read of a session (`SameFiles`).
-/

namespace Mimic

namespace Interp

namespace Accounts

open Outcomes

variable {host : Host} {s t : Shell} {path text user : Str} {lines lines' : List Str}

/-- The part of a session that reading and writing files depends on is the same. -/
structure SameFiles (s t : Shell) : Prop where
  vfs : t.vfs = s.vfs
  cwd : t.cwd = s.cwd
  uid : t.uid = s.uid
  gid : t.gid = s.gid

namespace SameFiles

theorem refl (s : Shell) : SameFiles s s := ⟨rfl, rfl, rfl, rfl⟩

theorem symm (h : SameFiles s t) : SameFiles t s :=
  ⟨h.vfs.symm, h.cwd.symm, h.uid.symm, h.gid.symm⟩

theorem trans {u : Shell} (h : SameFiles s t) (h' : SameFiles t u) : SameFiles s u :=
  ⟨h'.vfs.trans h.vfs, h'.cwd.trans h.cwd, h'.uid.trans h.uid, h'.gid.trans h.gid⟩

variable (h : SameFiles s t)

include h

theorem readText_eq (path : Str) : readText host t path = readText host s path := by
  rw [readText, readText, h.vfs, h.cwd]

theorem resolveParent_eq (path : Str) : resolveParent t path = resolveParent s path := by
  rw [resolveParent, resolveParent, h.vfs, h.cwd]

theorem isListed_eq (file : AccountFile) (name : Str) :
    isListed host t file name = isListed host s file name := by
  rw [isListed, isListed, h.readText_eq]

theorem writeText (path text : Str) :
    SameFiles (Interp.writeText host s path text) (Interp.writeText host t path text) := by
  rw [Interp.writeText, Interp.writeText, h.resolveParent_eq]
  split
  · exact h
  rw [h.vfs, h.uid, h.gid]
  split
  · exact ⟨rfl, h.cwd, rfl, rfl⟩
  split
  · exact h
  · exact ⟨rfl, h.cwd, rfl, rfl⟩

theorem setShadowEntry (user : Str) :
    SameFiles (Interp.setShadowEntry host s user) (Interp.setShadowEntry host t user) := by
  rw [Interp.setShadowEntry, Interp.setShadowEntry, h.readText_eq]
  exact h.writeText _ _

theorem pushCapture (c c' : Capture) : SameFiles (s.pushCapture c) (t.pushCapture c') :=
  ⟨h.vfs, h.cwd, h.uid, h.gid⟩

end SameFiles

/-! ### `chpasswd` -/

/-- The session after one line of `chpasswd`. -/
def entered (host : Host) (line : Str) (s : Shell) : Shell :=
  match Text.splitOnce ':' (Text.trim line) with
  | some (user, password) =>
    if isListed host s .passwd user then
      setShadowEntry host (s.pushCapture (.passwordChange user password)) user
    else s
  | none => s

variable (host) in
theorem chpasswdLoop_cons (s : Shell) (errs : Str) (status : ℤ) (line : Str) (lines : List Str) :
    ∃ errs' status', chpasswdLoop host s errs status (line :: lines) =
      chpasswdLoop host (entered host line s) errs' status' lines := by
  rw [chpasswdLoop, entered]
  dsimp only
  split
  · rename_i hblank
    rw [hblank]
    exact ⟨errs, status, rfl⟩
  split
  · rename_i hnone
    rw [hnone]
    exact ⟨_, _, rfl⟩
  · rename_i user password hsome
    rw [hsome]
    dsimp only
    cases hlisted : isListed host s .passwd user with
    | true =>
      rw [if_neg (by simp), if_pos rfl]
      exact ⟨_, _, rfl⟩
    | false =>
      rw [if_pos (by simp), if_neg Bool.false_ne_true]
      exact ⟨_, _, rfl⟩

theorem SameFiles.entered {line line' : Str} (h : SameFiles s t)
    (hname : Text.lineName (Text.trim line) = Text.lineName (Text.trim line')) :
    SameFiles (entered host line s) (entered host line' t) := by
  rw [Text.lineName, Text.lineName] at hname
  rw [Accounts.entered, Accounts.entered]
  rcases hline : Text.splitOnce ':' (Text.trim line) with - | ⟨user, password⟩ <;>
    rcases hline' : Text.splitOnce ':' (Text.trim line') with - | ⟨user', password'⟩ <;>
    rw [hline, hline'] at hname
  · exact h
  · cases hname
  · cases hname
  · obtain rfl : user = user' := Option.some.inj hname
    dsimp only
    rw [h.isListed_eq]
    split
    · exact (h.pushCapture _ _).setShadowEntry user
    · exact h

/-- **Lines that are for the same users** do the same to the files, whatever the passwords are. -/
theorem SameFiles.chpasswdLoop (h : SameFiles s t) (errs errs' : Str) (status status' : ℤ)
    (hlines : List.Forall₂ (fun line line' ↦
      Text.lineName (Text.trim line) = Text.lineName (Text.trim line')) lines lines') :
    SameFiles (chpasswdLoop host s errs status lines).1
      (chpasswdLoop host t errs' status' lines').1 := by
  induction hlines generalizing s t errs errs' status status' with
  | nil => exact h
  | @cons line line' lines lines' hname _ ih =>
    obtain ⟨errs₁, status₁, hstep⟩ := chpasswdLoop_cons host s errs status line lines
    obtain ⟨errs₂, status₂, hstep'⟩ := chpasswdLoop_cons host t errs' status' line' lines'
    rw [hstep, hstep']
    exact ih (h.entered hname) errs₁ errs₂ status₁ status₂

/-- Lines for nobody do nothing to the files. -/
theorem sameFiles_chpasswdLoop (errs : Str) (status : ℤ)
    (hlines : ∀ line ∈ lines, Text.lineName (Text.trim line) = none) :
    SameFiles s (chpasswdLoop host s errs status lines).1 := by
  induction lines generalizing errs status with
  | nil => exact .refl s
  | cons line lines ih =>
    obtain ⟨hline, hlines⟩ := List.forall_mem_cons.mp hlines
    obtain ⟨errs', status', hstep⟩ := chpasswdLoop_cons host s errs status line lines
    have hsame : entered host line s = s := by
      rw [Text.lineName, Option.map_eq_none_iff] at hline
      rw [entered, hline]
    rw [hstep, hsame]
    exact ih errs' status' hlines

theorem lineName_of_blank {input line : Str} (hblank : Text.trim input = [])
    (hline : line ∈ Text.lines input) : Text.lineName (Text.trim line) = none := by
  have htrim : Text.trim line = [] := Text.trim_eq_nil_iff.mpr fun c hc ↦
    Text.trim_eq_nil_iff.mp hblank c (Text.subset_of_mem_lines hline hc)
  rw [htrim]
  rfl

/-- `chpasswd` of root works through its lines, of which a blank input has none for anybody. -/
theorem chpasswd_sameFiles (args : List Str) (input : Str) (hs : s.uid = 0) :
    SameFiles (chpasswd host args { s with stdin := some input }).1
      (chpasswdLoop host s [] 0 (Text.lines input)).1 := by
  have hsame : SameFiles { s with stdin := some input } s := ⟨rfl, rfl, rfl, rfl⟩
  rw [chpasswd]
  dsimp only [Option.getD_some]
  split
  · rename_i hblank
    exact hsame.trans (sameFiles_chpasswdLoop [] 0 fun line hline ↦ lineName_of_blank hblank hline)
  · rw [if_neg (not_not_intro hs)]
    exact hsame.chpasswdLoop [] [] 0 0 (List.forall₂_same.mpr fun _ _ ↦ rfl)

/-- Nobody but root may set passwords. -/
theorem chpasswd_of_uid_ne (args : List Str) (input : Str) (hs : s.uid ≠ 0) :
    (chpasswd host args { s with stdin := some input }).1.vfs = s.vfs := by
  rw [chpasswd]
  dsimp only
  split
  · rfl
  · rfl

/-! ### The prompts of `passwd` -/

/-- What the two prompts of `passwd` answer to two lines. -/
def answers (host : Host) (first second : Str) : Run (Output × Output) := do
  let retype ← resume host first
  let done ← resume host second
  return (retype, done)

theorem resume_first (s : Shell) (target input : Str) :
    resume host input (s.withPending (some (.newPassword target none))) =
      (.ok (.written "Retype new password: ".toList [] 0),
        s.withPending (some (.newPassword target (some input)))) := rfl

theorem resume_second (s : Shell) (target first input : Str) :
    resume host input (s.withPending (some (.newPassword target (some first)))) =
      if first = input then
        (.ok (.written "passwd: password updated successfully\n".toList [] 0),
          setShadowEntry host ((s.withPending none).pushCapture (.passwordChange target first))
            target)
      else
        (.ok (.written [] ("Sorry, passwords do not match.\n" ++
            "passwd: Authentication token manipulation error\n" ++
            "passwd: password unchanged\n").toList 1), s.withPending none) := by
  show ((if first ≠ input then _ else _ : Run Output) (s.withPending none)) = _
  by_cases h : first = input
  · rw [if_neg (not_not_intro h), if_pos h]
    rfl
  · rw [if_pos h, if_neg h]
    rfl

variable (host) in
/-- Two answers, up to what the session remembers of them. -/
theorem answers_eq (s : Shell) (target first second : Str) :
    ∃ t, SameFiles s t ∧
      answers host first second (s.withPending (some (.newPassword target none))) =
        if first = second then
          (.ok (.written "Retype new password: ".toList [] 0,
            .written "passwd: password updated successfully\n".toList [] 0),
            setShadowEntry host t target)
        else
          (.ok (.written "Retype new password: ".toList [] 0,
            .written [] ("Sorry, passwords do not match.\n" ++
              "passwd: Authentication token manipulation error\n" ++
              "passwd: password unchanged\n").toList 1), t) := by
  rw [answers, bind_apply, resume_first]
  dsimp only
  rw [bind_apply, resume_second]
  by_cases h : first = second
  · refine ⟨(s.withPending none).pushCapture (.passwordChange target first),
      ⟨rfl, rfl, rfl, rfl⟩, ?_⟩
    rw [if_pos h, if_pos h]
    rfl
  · refine ⟨s.withPending none, ⟨rfl, rfl, rfl, rfl⟩, ?_⟩
    rw [if_neg h, if_neg h]
    rfl

/-- **Passwords stay out of the filesystem**: `chpasswd` leaves the same one behind for any two
inputs whose lines are for the same users, and the prompts of `passwd` for any two pairs of answers
that are both equal or both different. -/
theorem secrets_stay_out (host : Host) (s : Shell) :
    (∀ args input input', List.Forall₂ (fun line line' ↦
        Text.lineName (Text.trim line) = Text.lineName (Text.trim line'))
          (Text.lines input) (Text.lines input') →
      (chpasswd host args { s with stdin := some input }).1.vfs =
        (chpasswd host args { s with stdin := some input' }).1.vfs) ∧
    ∀ target first second first' second', (first = second ↔ first' = second') →
      let prompted := s.withPending (some (.newPassword target none))
      (answers host first second prompted).1 = (answers host first' second' prompted).1 ∧
        (answers host first second prompted).2.vfs =
          (answers host first' second' prompted).2.vfs := by
  constructor
  · intro args input input' hlines
    by_cases hs : s.uid = 0
    · rw [← (chpasswd_sameFiles args input hs).vfs, ← (chpasswd_sameFiles args input' hs).vfs]
      exact ((SameFiles.refl s).chpasswdLoop [] [] 0 0 hlines).vfs.symm
    · rw [chpasswd_of_uid_ne args input hs, chpasswd_of_uid_ne args input' hs]
  · intro target first second first' second' hsame
    obtain ⟨t, ht, hanswers⟩ := answers_eq host s target first second
    obtain ⟨t', ht', hanswers'⟩ := answers_eq host s target first' second'
    dsimp only
    rw [hanswers, hanswers']
    by_cases h : first = second
    · rw [if_pos h, if_pos (hsame.mp h)]
      exact ⟨rfl, ((ht.symm.trans ht').setShadowEntry target).vfs.symm⟩
    · rw [if_neg h, if_neg fun h' ↦ h (hsame.mpr h')]
      exact ⟨rfl, (ht.symm.trans ht').vfs.symm⟩

end Accounts

end Interp

end Mimic
