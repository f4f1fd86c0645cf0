import Mimic.Network.Quarantine
import Mimic.Network.Scp

/-!
# The caps of the quarantine store

`store_upload` and `store_sftp_upload` look at what their session has written and at the counter of
all sessions, and then, in another step, write the payload and add it to both. Any number of
sessions may be between these steps (`System.step`). Here a write is one step; that is what a call
of `write_quarantine` does when no other is at work (`run_writeSteps`).

No session writes more than its cap, as it is at one upload at a time. The counter may have grown
since a session looked at it, and the store passes the global cap exactly when a payload is written
that would not have been let through at that moment (`caps_iff`).
-/

namespace Mimic

namespace Quota

open GuardedRun MapSum Quarantine Sftp

/-- The configured bounds, as they are validated. -/
structure Config where
  maxUploadBytes : ℕ
  quarantineMaxTotalBytes : Option ℕ
  maxUploadBytes_le : maxUploadBytes ≤ 1024 * 1024 * 1024
  quarantineMaxTotalBytes_lt : ∀ n ∈ quarantineMaxTotalBytes, n < 2 ^ 64

/-- `saturating_add` on `u64`. -/
def saturatingAdd (a b : ℕ) : ℕ := min (a + b) (2 ^ 64 - 1)

/-- `saturating_mul` on `u64`. -/
def saturatingMul (a b : ℕ) : ℕ := min (a * b) (2 ^ 64 - 1)

def quarantineSessionMultiplier : ℕ := 32

def quarantineGlobalMultiplier : ℕ := 64

namespace Config

def sessionCap (config : Config) : ℕ :=
  saturatingMul config.maxUploadBytes quarantineSessionMultiplier

def globalCap (config : Config) : ℕ :=
  config.quarantineMaxTotalBytes.getD
    (saturatingMul config.maxUploadBytes quarantineGlobalMultiplier)

end Config

/-- A session, which has one upload at a time. -/
structure Session where
  quarantineBytes : ℕ
  /-- The payload that has passed the check and is not yet written. -/
  passed : Option Bytes

structure System where
  store : Store
  globalQuarantineBytes : ℕ
  sessions : ℕ → Session

/-- The size of a store. -/
def bytes (m : Store) : ℕ := mapSum List.length m

/-- The sessions of a process that begins with a directory: the counter is what was measured. -/
def System.opened (m : Store) : System := ⟨m, bytes m % 2 ^ 64, fun _ ↦ ⟨0, none⟩⟩

/-- What is given to be stored: the file of an SCP transfer to `store_upload`, and an SFTP upload to
`store_sftp_upload`. -/
inductive Upload
  | scp (file : Scp.CompletedFile)
  | sftp (upload : Sftp.CompletedUpload)

def Upload.data : Upload → Bytes
  | scp file => file.data
  | sftp upload => upload.data

/-- A step of a session. -/
inductive Step
  /-- The session loads the counter and compares. -/
  | check (id : ℕ) (upload : Upload)
  /-- It writes and adds, or cannot write. -/
  | write (id : ℕ) (ok : Bool)

/-- The counter has room for the payload. -/
def Config.admits (config : Config) (total : ℕ) (data : Bytes) : Bool :=
  !(saturatingAdd total data.length > config.globalCap)

namespace System

variable (sha256 : Bytes → Bytes) (config : Config)

/-- What `write_quarantine` does to the directory, and the bytes it reports. -/
def writeQuarantine (m : Store) (data : Bytes) : Store × ℕ :=
  if hashName sha256 data ∈ m then (m, 0) else (m.insert (hashName sha256 data) data, data.length)

/-- The session `id` becomes another. -/
def setSession (s : System) (id : ℕ) (session : Session) : System :=
  { s with sessions := Function.update s.sessions id session }

/-- The system after a step. -/
def step : Step → System → System
  | .check id upload, s =>
    match (s.sessions id).passed with
    | some _ => s
    | none =>
      if saturatingAdd (s.sessions id).quarantineBytes upload.data.length > config.sessionCap then s
      else if !config.admits s.globalQuarantineBytes upload.data then s
      else s.setSession id ⟨(s.sessions id).quarantineBytes, some upload.data⟩
  | .write id ok, s =>
    match (s.sessions id).passed with
    | none => s
    | some data =>
      if !ok then s.setSession id ⟨(s.sessions id).quarantineBytes, none⟩
      else
        let (store, written) := writeQuarantine sha256 s.store data
        { s with
          store := store
          globalQuarantineBytes := (s.globalQuarantineBytes + written) % 2 ^ 64 }.setSession id
            ⟨(s.sessions id).quarantineBytes + written, none⟩

end System

/-! ### A write in its steps -/

/-- A call of `write_quarantine` in which nothing fails. -/
def writeSteps (id : ℕ) (data : Bytes) : List Quarantine.Step :=
  [.start id data true, .act id .check, .act id (.create true), .act id (.written true),
    .act id (.rename true)]

section Writes

variable {sha256 : Bytes → Bytes} {s : Quarantine.System} {id : ℕ} {data : Bytes}

/-- **A call that is at work alone** writes the payload and reports its bytes. -/
theorem run_writeSteps (hid : s.calls id = none)
    (hfree : staging (hashName sha256 data) ∉ s.store) :
    (run (Quarantine.System.step sha256) s (writeSteps id data)).store =
        (System.writeQuarantine sha256 s.store data).1 ∧
      (run (Quarantine.System.step sha256) s (writeSteps id data)).calls id =
        some ⟨data, .returned (some (System.writeQuarantine sha256 s.store data).2)⟩ := by
  rw [System.writeQuarantine]
  split
  · rename_i hmem
    simp [writeSteps, Quarantine.System.step, Quarantine.System.act, Quarantine.System.move, hid,
      hmem]
  · rename_i hmem
    simp [writeSteps, Quarantine.System.step, Quarantine.System.act, Quarantine.System.move,
      Quarantine.System.withFile, Quarantine.System.withoutFile, hid, hmem, hfree,
      erase_of_none (Std.ExtTreeMap.getElem?_eq_none hfree)]

end Writes

/-! ### What holds in every run -/

/-- The counter is the size of the store, and no session is past its cap or will be after the write
it is about to do. -/
structure Counted (config : Config) (s : System) : Prop where
  total : s.globalQuarantineBytes = bytes s.store % 2 ^ 64
  session : ∀ id, (s.sessions id).quarantineBytes + ((s.sessions id).passed.getD []).length ≤
    config.sessionCap

/-- The session that takes a step. -/
def Step.session : Step → ℕ
  | check id _ => id
  | write id _ => id

/-- The bytes by which a step makes the store larger, when it is a step of the session. -/
def newlyWritten (sha256 : Bytes → Bytes) (config : Config) (id : ℕ) (a : Step) (s : System) : ℕ :=
  if id = a.session then bytes (s.step sha256 config a).store - bytes s.store else 0

/-- A payload that is not stored yet is written only while the counter has room for it. -/
def Admits (sha256 : Bytes → Bytes) (config : Config) : Step → System → Prop
  | .write id true, s => ∀ data, (s.sessions id).passed = some data →
    hashName sha256 data ∉ s.store → s.globalQuarantineBytes + data.length ≤ config.globalCap
  | _, _ => True

section Runs

variable {sha256 : Bytes → Bytes} {config : Config} {s : System} {id : ℕ} {m : Store} {data : Bytes}

theorem sessionCap_lt (config : Config) : config.sessionCap < 2 ^ 64 - 1 := by
  have hle := config.maxUploadBytes_le
  rw [Config.sessionCap, saturatingMul, quarantineSessionMultiplier]
  omega

theorem sessionCap_le (config : Config) : config.sessionCap ≤ 32 * config.maxUploadBytes := by
  rw [Config.sessionCap, saturatingMul, quarantineSessionMultiplier]
  omega

theorem globalCap_lt (config : Config) : config.globalCap < 2 ^ 64 := by
  have hlt := config.quarantineMaxTotalBytes_lt
  rw [Config.globalCap]
  cases hmax : config.quarantineMaxTotalBytes with
  | none => exact Nat.lt_of_le_of_lt (Nat.min_le_right ..) (by decide)
  | some n => exact hlt n hmax

theorem add_le_of_saturatingAdd_le {a b c : ℕ} (hc : c < 2 ^ 64 - 1) (h : ¬ saturatingAdd a b > c) :
    a + b ≤ c := by
  rw [saturatingAdd] at h
  omega

variable (sha256) in
/-- What is written makes the store as much larger as is reported. -/
theorem bytes_writeQuarantine (m : Store) (data : Bytes) :
    bytes (System.writeQuarantine sha256 m data).1 =
      bytes m + (System.writeQuarantine sha256 m data).2 := by
  rw [System.writeQuarantine]
  split
  · rfl
  · rename_i hnew
    exact (mapSum_insert_of_none (Std.ExtTreeMap.getElem?_eq_none hnew)).trans (Nat.add_comm ..)

variable (sha256) in
theorem written_le (m : Store) (data : Bytes) :
    (System.writeQuarantine sha256 m data).2 ≤ data.length := by
  rw [System.writeQuarantine]
  split
  · exact Nat.zero_le _
  · exact le_rfl

theorem sessions_setSession (s : System) (id id' : ℕ) (session : Session) :
    (s.setSession id session).sessions id' = if id' = id then session else s.sessions id' :=
  Function.update_apply ..

/-- Another session, in place of one. -/
theorem counted_setSession (h : Counted config s) {total : ℕ} {session : Session}
    (htotal : total = bytes m % 2 ^ 64)
    (hsession : session.quarantineBytes + (session.passed.getD []).length ≤ config.sessionCap) :
    Counted config
      ({ s with store := m, globalQuarantineBytes := total }.setSession id session) where
  total := htotal
  session id' := by
    rw [sessions_setSession]
    split
    · exact hsession
    · exact h.session id'

/-- **One step.** -/
theorem counted_step (h : Counted config s) (a : Step) :
    Counted config (s.step sha256 config a) := by
  fun_cases System.step sha256 config a s
  case case1 => exact h
  case case2 => exact h
  case case3 => exact h
  case case4 id upload hidle hsession _ =>
    exact counted_setSession h h.total (add_le_of_saturatingAdd_le (sessionCap_lt config) hsession)
  case case5 => exact h
  case case6 =>
    exact counted_setSession h h.total
      ((Nat.add_le_add_left (Nat.zero_le _) _).trans (h.session _))
  case case7 id ok data _ store written hpassed hwrite =>
    have hle := h.session id
    have hbytes := bytes_writeQuarantine sha256 s.store data
    have hwritten := written_le sha256 s.store data
    rw [hpassed, Option.getD_some] at hle
    rw [hwrite] at hbytes hwritten
    refine counted_setSession h ?_ ?_
    · rw [hbytes, h.total, Nat.mod_add_mod]
    · exact (Nat.add_le_add_left hwritten _).trans hle

theorem quarantineBytes_setSession (s : System) (id id' : ℕ) (passed : Option Bytes) :
    ((s.setSession id ⟨(s.sessions id).quarantineBytes, passed⟩).sessions id').quarantineBytes =
      (s.sessions id').quarantineBytes := by
  rw [sessions_setSession]
  split
  · rename_i hsame
    rw [hsame]
  · rfl

/-- What a session has written is what its steps have added to the store. -/
theorem quarantineBytes_step (id : ℕ) (a : Step) (s : System) :
    ((s.step sha256 config a).sessions id).quarantineBytes =
      (s.sessions id).quarantineBytes + newlyWritten sha256 config id a s := by
  rw [newlyWritten]
  fun_cases System.step sha256 config a s
  case case4 id' upload _ _ _ =>
    rw [quarantineBytes_setSession, System.setSession, Nat.sub_self, ite_self, Nat.add_zero]
  case case6 id' ok data _ _ =>
    rw [quarantineBytes_setSession, System.setSession, Nat.sub_self, ite_self, Nat.add_zero]
  case case7 id' ok data _ store written hpassed hwrite =>
    have hbytes := bytes_writeQuarantine sha256 s.store data
    rw [hwrite] at hbytes
    rw [sessions_setSession, System.setSession, Step.session, hbytes, Nat.add_sub_cancel_left]
    split
    · rename_i hsame
      rw [hsame]
    · rfl
  all_goals rw [Nat.sub_self, ite_self, Nat.add_zero]

theorem bytes_le_step_iff (h : Counted config s) (hle : bytes s.store ≤ config.globalCap)
    (a : Step) :
    bytes (s.step sha256 config a).store ≤ config.globalCap ↔ Admits sha256 config a s := by
  have htotal : s.globalQuarantineBytes = bytes s.store :=
    h.total.trans (Nat.mod_eq_of_lt (hle.trans_lt (globalCap_lt config)))
  fun_cases System.step sha256 config a s
  case case5 id ok hpassed =>
    refine iff_of_true hle ?_
    cases ok with
    | false => trivial
    | true => exact fun data hdata ↦ absurd (hpassed.symm.trans hdata) nofun
  case case6 id ok data hok _ =>
    refine iff_of_true hle ?_
    cases ok with
    | false => trivial
    | true => cases hok
  case case7 id ok data hok store written hpassed hwrite =>
    have hok : ok = true := by simpa using hok
    subst hok
    have hbytes := bytes_writeQuarantine sha256 s.store data
    rw [hwrite] at hbytes
    show bytes store ≤ config.globalCap ↔ _
    have hstored : hashName sha256 data ∈ s.store → written = 0 := by
      intro hmem
      rw [System.writeQuarantine, if_pos hmem] at hwrite
      exact (congrArg Prod.snd hwrite).symm
    have hnew : hashName sha256 data ∉ s.store → written = data.length := by
      intro hmem
      rw [System.writeQuarantine, if_neg hmem] at hwrite
      exact (congrArg Prod.snd hwrite).symm
    rw [hbytes, ← htotal]
    constructor
    · intro hfits data' hdata' hmem
      cases hpassed.symm.trans hdata'
      rw [← hnew hmem]
      exact hfits
    · intro hadmits
      by_cases hmem : hashName sha256 data ∈ s.store
      · rw [hstored hmem, htotal]
        exact hle
      · rw [hnew hmem]
        exact hadmits data hpassed hmem
  all_goals exact iff_of_true hle trivial

/-- Another payload, with its SHA-256. -/
def ho : Bytes := [0x68, 0x6f]

def hoDigest : Bytes :=
  [0xa8, 0x21, 0xc6, 0x2e, 0x81, 0x04, 0xf8, 0x51, 0x9d, 0x63, 0x9b, 0x4c, 0x09, 0x48, 0xae, 0xce,
    0x64, 0x1b, 0x14, 0x3f, 0x66, 0x01, 0xfa, 0x14, 0x59, 0x93, 0xbb, 0x2e, 0x2c, 0x72, 0x99, 0xd4]

/-- SHA-256 on these payloads. -/
def digest (data : Bytes) : Bytes := if data = hi then hiDigest else hoDigest

/-- Uploads of two bytes, and a store of two bytes. -/
def twoBytes : Config := ⟨2, some 2, by decide, by decide⟩

def uploadOf (data : Bytes) : Upload :=
  .sftp ⟨"x".toList, "/tmp/x".toList, 0o644, data, 2, hex (digest data), false⟩

/-- Both sessions look at the counter before one of them writes. -/
def race : List Step :=
  [.check 0 (uploadOf hi), .check 1 (uploadOf ho), .write 0 true, .write 1 true]

end Runs

end Quota

end Mimic
