import Mimic.Foundation.GuardedRun
import Mimic.Foundation.MapSum
import Mimic.Network.Sftp

/-!
# The quarantine store

`write_quarantine` stores a payload under its hash: it creates a staging file, writes it, and
renames it into place. Any number of calls may be between their steps, each of them may fail in any
step, and the process may end at any time, which leaves staging files behind (`System.step`).

A file under a bare hash always holds data with that hash, because the staging file of a hash
belongs to the call that created it (`Owned`). A call that finds a staging file reports that the
payload is stored, whether it is or not; every other report is true (`stored_iff`).
-/

namespace Mimic

namespace Quarantine

open GuardedRun MapSum Sftp

/-- The directory: the contents of its files, by name. -/
abbrev Store := Std.ExtTreeMap Str Bytes

section Names

variable (sha256 : Bytes → Bytes)

/-- The name of a payload. -/
def hashName (data : Bytes) : Str := hex (sha256 data)

/-- The staging file of a name. -/
def staging (name : Str) : Str := name ++ ".partial".toList

/-- A name that consists of a hash only. -/
def BareHash (name : Str) : Prop := ∃ digest : Bytes, name = hex digest

end Names

/-- Where a call of `write_quarantine` is. -/
inductive Phase
  /-- The directory is there. -/
  | checking
  /-- There was no file under the hash. -/
  | creating
  /-- The staging file is open. -/
  | writing
  /-- It is written. -/
  | synced
  /-- It could not be written or renamed. -/
  | removing
  /-- The call has returned: the bytes it reports as newly written, or an error. -/
  | returned (written : Option ℕ)
  deriving DecidableEq

structure Call where
  data : Bytes
  phase : Phase
  deriving DecidableEq

/-- The directory, and the calls of the process. -/
structure System where
  store : Store
  calls : ℕ → Option Call

/-- An operation of a call behind its beginning. The flags say whether the system carries it out. -/
inductive Op
  /-- `exists`. -/
  | check
  /-- `create_restricted`. -/
  | create (ok : Bool)
  /-- Some of the data is in the file. -/
  | progress (written : ℕ)
  /-- `write_all` and `sync_all` return. -/
  | written (ok : Bool)
  | rename (ok : Bool)
  /-- `remove_file`, whose result is ignored. -/
  | remove (ok : Bool)

/-- What happens next. -/
inductive Step
  /-- A call begins, with `create_dir_all`. -/
  | start (id : ℕ) (data : Bytes) (ok : Bool)
  | act (id : ℕ) (op : Op)
  /-- The process ends, and another one takes over the directory. -/
  | crash

namespace System

/-- The system with a call at another place. -/
def move (s : System) (id : ℕ) (data : Bytes) (phase : Phase) : System :=
  { s with calls := Function.update s.calls id (some ⟨data, phase⟩) }

/-- The system with another file. -/
def withFile (s : System) (name : Str) (content : Bytes) : System :=
  { s with store := s.store.insert name content }

/-- The system without a file. -/
def withoutFile (s : System) (name : Str) : System := { s with store := s.store.erase name }

section Steps

variable (sha256 : Bytes → Bytes)

/-- An operation, if the call is at the place for it. -/
def act (id : ℕ) (data : Bytes) (s : System) : Op → Phase → System
  | .check, .checking =>
    s.move id data (if hashName sha256 data ∈ s.store then .returned (some 0) else .creating)
  | .create ok, .creating =>
    if !ok then s.move id data (.returned none)
    -- `AlreadyExists` counts as stored
    else if staging (hashName sha256 data) ∈ s.store then s.move id data (.returned (some 0))
    else (s.withFile (staging (hashName sha256 data)) []).move id data .writing
  | .progress n, .writing =>
    (s.withFile (staging (hashName sha256 data)) (data.take n)).move id data .writing
  | .written ok, .writing =>
    if ok then (s.withFile (staging (hashName sha256 data)) data).move id data .synced
    else s.move id data .removing
  | .rename ok, .synced =>
    match if ok then s.store[staging (hashName sha256 data)]? else none with
    | some content =>
      ((s.withoutFile (staging (hashName sha256 data))).withFile (hashName sha256 data)
        content).move id data (.returned (some data.length))
    | none => s.move id data .removing
  | .remove ok, .removing =>
    (if ok then s.withoutFile (staging (hashName sha256 data)) else s).move id data
      (.returned none)
  | _, _ => s

/-- The system after a step. -/
def step : Step → System → System
  | .start id data ok, s =>
    if (s.calls id).isSome then s
    else s.move id data (if ok then .checking else .returned none)
  | .act id op, s =>
    match s.calls id with
    | none => s
    | some call => s.act sha256 id call.data op call.phase
  | .crash, s => { s with calls := fun _ ↦ none }

end Steps

end System

/-! ### Names -/

theorem dot_not_mem_hex (bytes : Bytes) : '.' ∉ hex bytes := by
  have hdigit : ∀ n < 16, Nat.digitChar n ≠ '.' := by decide
  rw [hex, List.mem_flatMap]
  rintro ⟨b, -, hb⟩
  have hlt := UInt8.toNat_lt b
  rcases List.mem_pair.mp hb with h | h
  · exact hdigit _ (by omega) h.symm
  · exact hdigit _ (by omega) h.symm

theorem not_bareHash_staging (name : Str) : ¬ BareHash (staging name) := by
  rintro ⟨digest, h⟩
  refine dot_not_mem_hex digest (h ▸ ?_)
  exact List.mem_append_right _ (by decide)

theorem staging_inj {name name' : Str} : staging name = staging name' ↔ name = name' :=
  List.append_left_inj _

/-! ### The invariant -/

/-- Every file under a bare hash holds data with that hash. -/
def System.Hashed (sha256 : Bytes → Bytes) (s : System) : Prop :=
  ∀ name content, s.store[name]? = some content → BareHash name → name = hashName sha256 content

/-- The call has a staging file. -/
def Phase.owns : Phase → Bool
  | writing | synced | removing => true
  | _ => false

/-- Who is at work on a staging file. -/
structure Owned (sha256 : Bytes → Bytes) (s : System) : Prop where
  there : ∀ id data phase, s.calls id = some ⟨data, phase⟩ → phase.owns →
    staging (hashName sha256 data) ∈ s.store
  alone : ∀ id id' data data' phase phase', s.calls id = some ⟨data, phase⟩ → phase.owns →
    s.calls id' = some ⟨data', phase'⟩ → phase'.owns →
    hashName sha256 data = hashName sha256 data' → id = id'
  complete : ∀ id data, s.calls id = some ⟨data, .synced⟩ →
    s.store[staging (hashName sha256 data)]? = some data
  hashed : s.Hashed sha256

/-- No other call is at work on the staging file of the name. -/
def System.Free (sha256 : Bytes → Bytes) (s : System) (id : ℕ) (name : Str) : Prop :=
  ∀ id' data phase, id' ≠ id → s.calls id' = some ⟨data, phase⟩ → phase.owns →
    name ≠ hashName sha256 data

section Invariants

variable {sha256 : Bytes → Bytes} {s : System} {id : ℕ} {data : Bytes} {phase phase' : Phase}
  {m : Store} {content : Bytes} {name : Str}

theorem hashed_insert_staging (h : s.Hashed sha256) (name : Str) (content : Bytes) :
    (s.withFile (staging name) content).Hashed sha256 := by
  intro name' content' hget hbare
  have hne : staging name ≠ name' := fun hsame ↦ not_bareHash_staging name (hsame ▸ hbare)
  rw [System.withFile, getElem?_insert_of_ne hne] at hget
  exact h name' content' hget hbare

theorem hashed_erase (h : s.Hashed sha256) (name : Str) : (s.withoutFile name).Hashed sha256 := by
  intro name' content' hget hbare
  rw [System.withoutFile, Std.ExtTreeMap.getElem?_erase] at hget
  split at hget
  · cases hget
  · exact h name' content' hget hbare

theorem hashed_insert_data (h : s.Hashed sha256) (data : Bytes) :
    (s.withFile (hashName sha256 data) data).Hashed sha256 := by
  intro name' content' hget hbare
  by_cases hsame : hashName sha256 data = name'
  · rw [System.withFile, hsame, Std.ExtTreeMap.getElem?_insert_self] at hget
    rw [← hsame, Option.some.inj hget]
  · rw [System.withFile, getElem?_insert_of_ne hsame] at hget
    exact h name' content' hget hbare

/-- The call that was moved, or another one. -/
theorem calls_move {id' : ℕ} {data' : Bytes} {phase' : Phase}
    (h : (s.move id data phase).calls id' = some ⟨data', phase'⟩) :
    id' = id ∧ data' = data ∧ phase' = phase ∨ id' ≠ id ∧ s.calls id' = some ⟨data', phase'⟩ := by
  replace h : Function.update s.calls id (some ⟨data, phase⟩) id' = some ⟨data', phase'⟩ := h
  rw [Function.update_apply] at h
  split at h
  · rename_i hsame
    cases h
    exact .inl ⟨hsame, rfl, rfl⟩
  · rename_i hne
    exact .inr ⟨hne, h⟩

namespace Owned

/-- The names at which calls are at work differ. -/
theorem free (h : Owned sha256 s) (hcall : s.calls id = some ⟨data, phase⟩) (howns : phase.owns) :
    s.Free sha256 id (hashName sha256 data) :=
  fun id' data' phase' hne hcall' howns' hsame ↦
    hne (h.alone id' id data' data phase' phase hcall' howns' hcall howns hsame.symm)

theorem free_of_not_mem (h : Owned sha256 s) (hname : staging name ∉ s.store) :
    s.Free sha256 id name := by
  rintro id' data' phase' - hcall' howns' rfl
  exact hname (h.there id' data' phase' hcall' howns')

/-- A call moves to where it has no staging file, and the directory stays. -/
theorem quiet (h : Owned sha256 s) (hphase : phase.owns = false) :
    Owned sha256 (s.move id data phase) where
  there id' data' phase' hcall howns := by
    rcases calls_move hcall with ⟨-, -, rfl⟩ | ⟨-, hcall⟩
    · exact absurd howns (by rw [hphase]; exact Bool.false_ne_true)
    · exact h.there id' data' phase' hcall howns
  alone id₁ id₂ data₁ data₂ phase₁ phase₂ hcall₁ howns₁ hcall₂ howns₂ hsame := by
    rcases calls_move hcall₁ with ⟨-, -, rfl⟩ | ⟨-, hcall₁⟩
    · exact absurd howns₁ (by rw [hphase]; exact Bool.false_ne_true)
    rcases calls_move hcall₂ with ⟨-, -, rfl⟩ | ⟨-, hcall₂⟩
    · exact absurd howns₂ (by rw [hphase]; exact Bool.false_ne_true)
    exact h.alone id₁ id₂ data₁ data₂ phase₁ phase₂ hcall₁ howns₁ hcall₂ howns₂ hsame
  complete id' data' hcall := by
    rcases calls_move hcall with ⟨-, -, rfl⟩ | ⟨-, hcall⟩
    · cases hphase
    · exact h.complete id' data' hcall
  hashed := h.hashed

/-- A call moves that is alone at work on its staging file. -/
theorem moved (h : Owned sha256 s) (hfree : s.Free sha256 id (hashName sha256 data))
    (hm : ∀ name, name ≠ hashName sha256 data → m[staging name]? = s.store[staging name]?)
    (hown : phase.owns → staging (hashName sha256 data) ∈ m)
    (hcomplete : phase = .synced → m[staging (hashName sha256 data)]? = some data)
    (hhashed : ({ s with store := m } : System).Hashed sha256) :
    Owned sha256 ({ s with store := m }.move id data phase) where
  there id' data' phase' hcall howns := by
    rcases calls_move hcall with ⟨-, rfl, rfl⟩ | ⟨hne, hcall⟩
    · exact hown howns
    · have hthere := h.there id' data' phase' hcall howns
      rw [Std.ExtTreeMap.mem_iff_isSome_getElem?] at hthere
      show staging (hashName sha256 data') ∈ m
      rw [Std.ExtTreeMap.mem_iff_isSome_getElem?,
        hm _ (hfree id' data' phase' hne hcall howns).symm]
      exact hthere
  alone id₁ id₂ data₁ data₂ phase₁ phase₂ hcall₁ howns₁ hcall₂ howns₂ hsame := by
    rcases calls_move hcall₁ with ⟨rfl, rfl, rfl⟩ | ⟨hne₁, hbefore₁⟩
    · rcases calls_move hcall₂ with ⟨rfl, -, -⟩ | ⟨hne₂, hbefore₂⟩
      · rfl
      · exact absurd hsame (hfree id₂ data₂ phase₂ hne₂ hbefore₂ howns₂)
    · rcases calls_move hcall₂ with ⟨rfl, rfl, rfl⟩ | ⟨-, hbefore₂⟩
      · exact absurd hsame.symm (hfree id₁ data₁ phase₁ hne₁ hbefore₁ howns₁)
      · exact h.alone id₁ id₂ data₁ data₂ phase₁ phase₂ hbefore₁ howns₁ hbefore₂ howns₂ hsame
  complete id' data' hcall := by
    rcases calls_move hcall with ⟨-, rfl, hphase⟩ | ⟨hne, hcall⟩
    · exact hcomplete hphase.symm
    · exact (hm _ (hfree id' data' .synced hne hcall rfl).symm).trans (h.complete id' data' hcall)
  hashed := hhashed

end Owned

theorem getElem?_staging_of_ne {name' : Str} (hne : name' ≠ name) :
    (s.store.insert (staging name) content)[staging name']? = s.store[staging name']? :=
  getElem?_insert_of_ne fun hsame ↦ hne (staging_inj.mp hsame).symm

/-- The staging file of a call gets other contents. -/
theorem Owned.rewritten (h : Owned sha256 s) (hfree : s.Free sha256 id (hashName sha256 data))
    (hcontent : phase = .synced → content = data) :
    Owned sha256 ((s.withFile (staging (hashName sha256 data)) content).move id data phase) :=
  h.moved hfree (fun _ hne ↦ getElem?_staging_of_ne hne)
    (fun _ ↦ Std.ExtTreeMap.mem_insert_self)
    (fun hphase ↦ by rw [Std.ExtTreeMap.getElem?_insert_self, hcontent hphase])
    (hashed_insert_staging h.hashed _ _)

/-- What is renamed is the payload. -/
theorem renamed_content {ok : Bool} (h : Owned sha256 s)
    (hcall : s.calls id = some ⟨data, .synced⟩)
    (hcontent : (if ok then s.store[staging (hashName sha256 data)]? else none) = some content) :
    content = data := by
  split at hcontent
  · exact Option.some.inj (hcontent.symm.trans (h.complete id data hcall))
  · cases hcontent

/-- **One operation.** -/
theorem owned_act (h : Owned sha256 s) (hcall : s.calls id = some ⟨data, phase⟩) (op : Op) :
    Owned sha256 (s.act sha256 id data op phase) := by
  fun_cases System.act sha256 id data s op phase
  case case1 => exact h.quiet (by split <;> rfl)
  case case2 => exact h.quiet rfl
  case case3 => exact h.quiet rfl
  case case4 hname => exact h.rewritten (h.free_of_not_mem hname) nofun
  case case5 => exact h.rewritten (h.free hcall rfl) nofun
  case case6 => exact h.rewritten (h.free hcall rfl) fun _ ↦ rfl
  case case7 =>
    exact h.moved (h.free hcall rfl) (fun _ _ ↦ rfl) (fun _ ↦ h.there id data _ hcall rfl) nofun
      h.hashed
  case case8 ok content hcontent =>
    obtain rfl := renamed_content h hcall hcontent
    have hhashed := hashed_insert_data (hashed_erase h.hashed (staging (hashName sha256 content)))
      content
    refine h.moved (h.free hcall rfl) (fun name hne ↦ ?_) nofun nofun hhashed
    have hbare : hashName sha256 content ≠ staging name := fun hsame ↦
      not_bareHash_staging name ⟨_, hsame.symm⟩
    rw [getElem?_insert_of_ne hbare]
    exact getElem?_erase_of_ne fun hsame ↦ hne (staging_inj.mp hsame).symm
  case case9 =>
    exact h.moved (h.free hcall rfl) (fun _ _ ↦ rfl) (fun _ ↦ h.there id data _ hcall rfl) nofun
      h.hashed
  case case10 ok =>
    split
    · exact h.moved (h.free hcall rfl)
        (fun _ hne ↦ getElem?_erase_of_ne fun hsame ↦ hne (staging_inj.mp hsame).symm) nofun nofun
        (hashed_erase h.hashed _)
    · exact h.quiet rfl
  case case11 => exact h

/-- **One step.** -/
theorem owned_step (h : Owned sha256 s) (a : Step) : Owned sha256 (s.step sha256 a) := by
  cases a with
  | start id data ok =>
    rw [System.step]
    split
    · exact h
    · exact h.quiet (by split <;> rfl)
  | act id op =>
    rw [System.step]
    split
    · exact h
    · rename_i call hcall
      exact owned_act h hcall op
  | crash =>
    exact ⟨nofun, nofun, nofun, h.hashed⟩

end Invariants

/-! ### What is reported -/

/-- What a call reports as stored is there. -/
def System.Stored (sha256 : Bytes → Bytes) (s : System) : Prop :=
  ∀ id data n, s.calls id = some ⟨data, .returned (some n)⟩ →
    s.store[hashName sha256 data]? = some data

/-- A call that finds a staging file in its place finds the file under the hash as well. -/
def Finds (sha256 : Bytes → Bytes) : Step → System → Prop
  | .act id (.create true), s => ∀ data, s.calls id = some ⟨data, .creating⟩ →
    staging (hashName sha256 data) ∈ s.store → hashName sha256 data ∈ s.store
  | _, _ => True

/-- The payload of a call that begins is one of these. -/
def Offers (payloads : Set Bytes) : Step → System → Prop
  | .start _ data _, _ => data ∈ payloads
  | _, _ => True

/-- The payloads of all calls and all files are among these. -/
structure Known (payloads : Set Bytes) (s : System) : Prop where
  calls : ∀ id data phase, s.calls id = some ⟨data, phase⟩ → data ∈ payloads
  files : ∀ name content, s.store[name]? = some content → BareHash name → content ∈ payloads

section Reports

variable {sha256 : Bytes → Bytes} {payloads : Set Bytes} {s : System} {id : ℕ} {data : Bytes}
  {phase : Phase}

/-- An operation leaves the other calls where they are. -/
theorem calls_act_of_ne (op : Op) {id' : ℕ} (hne : id' ≠ id) :
    (s.act sha256 id data op phase).calls id' = s.calls id' := by
  fun_cases System.act sha256 id data s op phase
  case case10 =>
    split
    · exact Function.update_of_ne hne _ _
    · exact Function.update_of_ne hne _ _
  case case11 => rfl
  all_goals exact Function.update_of_ne hne _ _

variable (sha256) in
/-- A call keeps its payload. -/
theorem calls_act_self (hcall : s.calls id = some ⟨data, phase⟩) (op : Op) :
    ∃ phase', (s.act sha256 id data op phase).calls id = some ⟨data, phase'⟩ := by
  fun_cases System.act sha256 id data s op phase
  case case10 =>
    split
    · exact ⟨_, Function.update_self ..⟩
    · exact ⟨_, Function.update_self ..⟩
  case case11 => exact ⟨_, hcall⟩
  all_goals exact ⟨_, Function.update_self ..⟩

/-- An operation sets no file under a hash but that of its payload. -/
theorem file_act {name : Str} (ho : Owned sha256 s) (hcall : s.calls id = some ⟨data, phase⟩)
    (op : Op) (hbare : BareHash name) :
    (s.act sha256 id data op phase).store[name]? = s.store[name]? ∨
      name = hashName sha256 data ∧ (s.act sha256 id data op phase).store[name]? = some data := by
  have hne : ∀ name', staging name' ≠ name := fun name' hsame ↦
    not_bareHash_staging name' (hsame ▸ hbare)
  fun_cases System.act sha256 id data s op phase
  case case4 => exact .inl (getElem?_insert_of_ne (hne _))
  case case5 => exact .inl (getElem?_insert_of_ne (hne _))
  case case6 => exact .inl (getElem?_insert_of_ne (hne _))
  case case8 ok content hcontent =>
    obtain rfl := renamed_content ho hcall hcontent
    by_cases hsame : hashName sha256 content = name
    · subst hsame
      exact .inr ⟨rfl, Std.ExtTreeMap.getElem?_insert_self⟩
    · exact .inl ((getElem?_insert_of_ne hsame).trans (getElem?_erase_of_ne (hne _)))
  case case10 ok =>
    split
    · exact .inl (getElem?_erase_of_ne (hne _))
    · exact .inl rfl
  all_goals exact .inl rfl

theorem bareHash_hashName (data : Bytes) : BareHash (hashName sha256 data) := ⟨_, rfl⟩

theorem known_act (h : Known payloads s) (ho : Owned sha256 s)
    (hcall : s.calls id = some ⟨data, phase⟩) (op : Op) :
    Known payloads (s.act sha256 id data op phase) where
  calls id' data' phase' hcall' := by
    by_cases hsame : id' = id
    · subst hsame
      obtain ⟨next, hnext⟩ := calls_act_self sha256 hcall op
      cases hnext.symm.trans hcall'
      exact h.calls id' data phase hcall
    · exact h.calls id' data' phase' ((calls_act_of_ne op hsame).symm.trans hcall')
  files name content hget hbare := by
    rcases file_act ho hcall op hbare with hstay | ⟨-, hnew⟩
    · exact h.files name content (hstay.symm.trans hget) hbare
    · cases hnew.symm.trans hget
      exact h.calls id data phase hcall

/-- A file under a hash is the payload with that hash. -/
theorem stored_of_mem (hinj : payloads.InjOn (hashName sha256)) (h : Known payloads s)
    (hhashed : s.Hashed sha256) (hdata : data ∈ payloads) (hmem : hashName sha256 data ∈ s.store) :
    s.store[hashName sha256 data]? = some data := by
  obtain ⟨content, hcontent⟩ := Option.isSome_iff_exists.mp
    (Std.ExtTreeMap.mem_iff_isSome_getElem?.mp hmem)
  have hsame := hhashed _ content hcontent (bareHash_hashName data)
  rw [hcontent, hinj (h.files _ content hcontent (bareHash_hashName data)) hdata hsame.symm]

/-- It stays. -/
theorem stored_act (hinj : payloads.InjOn (hashName sha256)) (h : Known payloads s)
    (ho : Owned sha256 s) (hcall : s.calls id = some ⟨data, phase⟩) (op : Op) {data' : Bytes}
    (hdata : data' ∈ payloads) (hget : s.store[hashName sha256 data']? = some data') :
    (s.act sha256 id data op phase).store[hashName sha256 data']? = some data' := by
  rcases file_act ho hcall op (bareHash_hashName data') with hstay | ⟨hsame, hnew⟩
  · exact hstay.trans hget
  · rw [hnew, hinj hdata (h.calls id data phase hcall) hsame]

@[simp] theorem calls_move_self (s : System) (id : ℕ) (data : Bytes) (phase : Phase) :
    (s.move id data phase).calls id = some ⟨data, phase⟩ :=
  Function.update_self ..

/-- What the other calls have reported stays true. -/
theorem stored_act_self_iff (hinj : payloads.InjOn (hashName sha256)) (h : Known payloads s)
    (ho : Owned sha256 s) (hs : s.Stored sha256) (hcall : s.calls id = some ⟨data, phase⟩)
    (op : Op) : (s.act sha256 id data op phase).Stored sha256 ↔
      ∀ n, (s.act sha256 id data op phase).calls id = some ⟨data, .returned (some n)⟩ →
        (s.act sha256 id data op phase).store[hashName sha256 data]? = some data := by
  refine ⟨fun hall n ↦ hall id data n, fun hself id' data' n hcall' ↦ ?_⟩
  by_cases hsame : id' = id
  · subst hsame
    obtain ⟨next, hnext⟩ := calls_act_self sha256 hcall op
    cases hnext.symm.trans hcall'
    exact hself n hnext
  · have hbefore := (calls_act_of_ne op hsame).symm.trans hcall'
    exact stored_act hinj h ho hcall op (h.calls id' data' _ hbefore) (hs id' data' n hbefore)

theorem finds_act_iff (hcall : s.calls id = some ⟨data, phase⟩) (op : Op) :
    Finds sha256 (.act id op) s ↔ (op = .create true → phase = .creating →
      staging (hashName sha256 data) ∈ s.store → hashName sha256 data ∈ s.store) := by
  cases op with
  | create ok =>
    cases ok with
    | false => exact iff_of_true trivial nofun
    | true =>
      constructor
      · rintro h - rfl hstaging
        exact h data hcall hstaging
      · intro h data' hcall' hstaging
        cases hcall.symm.trans hcall'
        exact h rfl rfl hstaging
  | _ => exact iff_of_true trivial nofun

/-- A call that has moved on without a report. -/
theorem of_silent {next : Phase} (hnext : ∀ n, next ≠ .returned (some n)) {p : Prop} (n : ℕ)
    (h : (s.move id data next).calls id = some ⟨data, .returned (some n)⟩) : p := by
  rw [calls_move_self] at h
  cases h
  exact absurd rfl (hnext n)

/-- **What an operation reports** is true unless it finds only a staging file. -/
theorem stored_act_iff (hinj : payloads.InjOn (hashName sha256)) (h : Known payloads s)
    (ho : Owned sha256 s) (hs : s.Stored sha256) (hcall : s.calls id = some ⟨data, phase⟩)
    (op : Op) : (s.act sha256 id data op phase).Stored sha256 ↔ Finds sha256 (.act id op) s := by
  have hfile := stored_of_mem hinj h ho.hashed (h.calls id data phase hcall)
  rw [stored_act_self_iff hinj h ho hs hcall, finds_act_iff hcall]
  fun_cases System.act sha256 id data s op phase
  case case1 =>
    refine iff_of_true (fun n hnext ↦ ?_) (fun h ↦ nomatch h)
    rw [calls_move_self] at hnext
    split at hnext
    · rename_i hmem
      exact hfile hmem
    · cases hnext
  case case2 ok hok =>
    refine iff_of_true (of_silent (by nofun)) fun hsame ↦ ?_
    cases hsame
    cases hok
  case case3 ok hok hstaging =>
    have hok : ok = true := by simpa using hok
    subst hok
    constructor
    · intro hself _ _ _
      exact Std.ExtTreeMap.mem_iff_isSome_getElem?.mpr
        (Option.isSome_of_eq_some (hself 0 (calls_move_self ..)))
    · intro hmem n _
      exact hfile (hmem rfl rfl hstaging)
  case case4 hstaging =>
    exact iff_of_true (of_silent (by nofun)) fun _ _ hmem ↦ absurd hmem hstaging
  case case8 ok content hcontent =>
    refine iff_of_true (fun n _ ↦ ?_) fun h ↦ nomatch h
    rw [renamed_content ho hcall hcontent]
    exact Std.ExtTreeMap.getElem?_insert_self
  case case11 hother _ _ _ _ =>
    refine iff_of_true (hs id data) fun hcreate hcreating ↦ ?_
    exact absurd hcreating (hother true hcreate)
  all_goals exact iff_of_true (of_silent (by nofun)) fun h ↦ nomatch h

theorem known_step (h : Known payloads s) (ho : Owned sha256 s) {a : Step}
    (ha : Offers payloads a s) : Known payloads (s.step sha256 a) := by
  cases a with
  | start id data ok =>
    rw [System.step]
    split
    · exact h
    · refine ⟨fun id' data' phase' hcall ↦ ?_, h.files⟩
      rcases calls_move hcall with ⟨-, rfl, -⟩ | ⟨-, hcall⟩
      · exact ha
      · exact h.calls id' data' phase' hcall
  | act id op =>
    rw [System.step]
    split
    · exact h
    · rename_i call hcall
      exact known_act h ho hcall op
  | crash => exact ⟨nofun, h.files⟩

theorem stored_step_iff (hinj : payloads.InjOn (hashName sha256)) (h : Known payloads s)
    (ho : Owned sha256 s) (hs : s.Stored sha256) (a : Step) :
    (s.step sha256 a).Stored sha256 ↔ Finds sha256 a s := by
  cases a with
  | start id data ok =>
    refine iff_of_true ?_ trivial
    rw [System.step]
    split
    · exact hs
    · intro id' data' n hcall
      rcases calls_move hcall with ⟨-, -, hphase⟩ | ⟨-, hcall⟩
      · cases ok <;> cases hphase
      · exact hs id' data' n hcall
  | act id op =>
    rw [System.step]
    split
    · rename_i hnone
      refine iff_of_true hs ?_
      cases op with
      | create ok =>
        cases ok with
        | false => trivial
        | true => exact fun data hcall ↦ absurd (hnone.symm.trans hcall) nofun
      | _ => trivial
    · rename_i call hcall
      exact stored_act_iff hinj h ho hs hcall op
  | crash => exact iff_of_true nofun trivial

/-- The process begins with a directory. -/
def System.opened (m : Store) : System := ⟨m, fun _ ↦ none⟩

/-- **The store is truthful** along a run exactly if every call that finds a staging file finds the
file under the hash too; and its files hold what they are named after in every run. -/
theorem stored_iff (hinj : payloads.InjOn (hashName sha256)) {m : Store}
    (hfiles : ∀ name content, m[name]? = some content → BareHash name →
      name = hashName sha256 content ∧ content ∈ payloads)
    {steps : List Step}
    (hsteps : Admissible (System.step sha256) (Offers payloads) (.opened m) steps) :
    (∀ k, (run (System.step sha256) (.opened m) (steps.take k)).Hashed sha256) ∧
      ((∀ k, (run (System.step sha256) (.opened m) (steps.take k)).Stored sha256) ↔
        Admissible (System.step sha256) (Finds sha256) (.opened m) steps) := by
  have howned : Owned sha256 (.opened m) :=
    ⟨nofun, nofun, nofun, fun name content hget hbare ↦ (hfiles name content hget hbare).1⟩
  have hknown : Known payloads (.opened m) :=
    ⟨nofun, fun name content hget hbare ↦ (hfiles name content hget hbare).2⟩
  refine ⟨fun k ↦ ?_, ?_⟩
  · exact (invariant_run (I := Owned sha256) admissible_true (fun a _ _ h ↦ owned_step h a)
      howned).hashed
  · exact forall_take_iff (I := fun s ↦ Owned sha256 s ∧ Known payloads s) hsteps
      (fun a s ha hs ↦ ⟨owned_step hs.1 a, known_step hs.2 hs.1 ha⟩)
      (fun a s _ hs hstored ↦ stored_step_iff hinj hs.2 hs.1 hstored a) ⟨howned, hknown⟩ nofun

/-- A process that ends before it has written the payload. -/
def leftover : List Step := [.start 0 hi true, .act 0 .check, .act 0 (.create true), .crash]

/-- The call of the next process. -/
def uploadAgain : List Step := [.start 0 hi true, .act 0 .check, .act 0 (.create true)]

theorem stored_iff_uploadAgain :
    (∀ k, (run (System.step fun _ ↦ hiDigest) (.opened ∅)
        ((leftover ++ uploadAgain).take k)).Hashed fun _ ↦ hiDigest) ∧
      ((∀ k, (run (System.step fun _ ↦ hiDigest) (.opened ∅)
          ((leftover ++ uploadAgain).take k)).Stored fun _ ↦ hiDigest) ↔
        Admissible (System.step fun _ ↦ hiDigest) (Finds fun _ ↦ hiDigest) (.opened ∅)
          (leftover ++ uploadAgain)) :=
  stored_iff (Set.injOn_singleton _ hi)
    (fun _ _ hget ↦ absurd hget (by rw [Std.ExtTreeMap.getElem?_empty]; nofun))
    ⟨rfl, trivial, trivial, trivial, rfl, trivial, trivial, trivial⟩

/-- The payload is never stored, and the call reports that it is. -/
theorem not_stored_uploadAgain :
    ¬ ∀ k, (run (System.step fun _ ↦ hiDigest) (.opened ∅)
      ((leftover ++ uploadAgain).take k)).Stored fun _ ↦ hiDigest := by
  intro hall
  have hcall : (run (System.step fun _ ↦ hiDigest) (.opened ∅)
      ((leftover ++ uploadAgain).take 7)).calls 0 = some ⟨hi, .returned (some 0)⟩ := by
    decide +kernel
  have hget : (run (System.step fun _ ↦ hiDigest) (.opened ∅)
      ((leftover ++ uploadAgain).take 7)).store[hashName (fun _ ↦ hiDigest) hi]? = none := by
    decide +kernel
  exact absurd (hget.symm.trans (hall 7 0 hi 0 hcall)) nofun

end Reports

end Quarantine

end Mimic
