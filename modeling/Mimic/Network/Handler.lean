import Mimic.Network.SftpStream
import Mimic.Network.SftpHandles

/-!
# A connection

The handler of one connection (`MimicHandler`), as far as SFTP uploads depend on it: the channel
that is open, the shell and the SFTP session behind it, and the uploads handed to
`store_sftp_upload`.

What command lines and `scp` transfers do to the shell, and whether they end the channel, is no
concern here: the event carries it. So does whether the replies of an event could be sent, since the
handler stops at the first one that cannot.

An SFTP session ends with the channel, with the connection, or when a second `subsystem` request
puts a new one in its place. All but the last drain it first. `departures` records each write handle
as it leaves the table of open handles, however it leaves; along every run without the last, and
without a handle number that comes round while it is in use, each of them that received a byte is
handed over, once (`uploads_handed_once`).
-/

namespace Mimic

namespace Ssh

open Wire BigEndian Sftp GuardedRun MapSum

/-! ### Events -/

/-- What `exec_request` makes of a command: `parse_scp` recognises two of them. -/
inductive Exec
  /-- An upload by `scp`, which goes on in `data`. -/
  | scpSink
  /-- A download by `scp`, which is refused. -/
  | scpSource
  /-- Any other command, and the shell as it left it. -/
  | command (shell : Shell)

/-- What happens in the parts of a call that are not modelled: the shell after it, and whether it
came to `end_channel` and all replies of that were sent. -/
structure Outcome where
  shell : Option Shell
  ended : Bool

/-- A call of the handler by the transport. -/
inductive Call
  | channelOpenSession (channel : UInt32)
  | subsystemRequest (name : Str)
  | shellRequest (accepted : Bool)
  | execRequest (channel : UInt32) (accepted : Bool) (exec : Exec) (ended : Bool)
  | data (channel : UInt32) (bytes : Bytes) (outcome : Outcome)
  | channelEof (channel : UInt32) (outcome : Outcome)
  | channelClose (channel : UInt32)
  | drop

/-- A call, with what it reads from outside. -/
structure Event where
  ambient : Ambient
  call : Call

/-- What the handler is configured with: the cap on one upload, and the shell it builds on first
use. -/
structure Config where
  maxUploadBytes : ℕ
  freshShell : Timestamp → Shell

/-- The state of a connection. -/
structure Handler where
  activeChannel : Option UInt32
  shell : Option Shell
  shellStarted : Bool
  /-- Whether an upload by `scp` is in progress. -/
  scp : Bool
  sftp : Option SftpSession
  /-- The uploads handed to `store_sftp_upload`, in order. -/
  stored : List CompletedUpload

namespace Handler

def new : Handler := ⟨none, none, false, false, none, []⟩

section Methods

variable (config : Config) (ambient : Ambient) (channel : UInt32) (h : Handler)

def tryOpenChannel : Handler :=
  if h.activeChannel.isSome then h else { h with activeChannel := some channel }

/-- The shell, built if this is its first use. -/
def theShell : Shell := h.shell.getD (config.freshShell ambient.now)

/-- Finalise the write handles that never received `SSH_FXP_CLOSE`. -/
def drainSftpUploads : Handler :=
  match h.sftp, h.shell with
  | none, _ => h
  | some _, none => { h with sftp := none }
  | some sftp, some shell =>
    let pending := intoPendingUploads ambient sftp shell
    { h with sftp := none, shell := some pending.1, stored := h.stored ++ pending.2 }

def closeChannel : Handler :=
  if h.activeChannel = some channel then
    { h.drainSftpUploads ambient with
      activeChannel := none, shell := none, scp := false, sftp := none, shellStarted := false }
  else h

/-- `end_channel`, given whether its replies were sent: it closes the channel after them. -/
def endChannel (sent : Bool) : Handler := if sent then h.closeChannel ambient channel else h

def subsystemRequest (name : Str) : Handler :=
  if name = "sftp".toList then { h with sftp := some SftpSession.new } else h

def execRequest (exec : Exec) (ended : Bool) : Handler :=
  match exec with
  | .scpSink => { h with scp := true }
  | .scpSource => h.endChannel ambient channel ended
  | .command shell => { h with shell := some shell }.endChannel ambient channel ended

def data (bytes : Bytes) (outcome : Outcome) : Handler :=
  match h.sftp with
  | some sftp =>
    let fed := feed ambient config.maxUploadBytes bytes sftp (h.theShell config ambient)
    { h with
      sftp := some fed.session, shell := some fed.shell, stored := h.stored ++ fed.completed }
  | none =>
    if h.scp then { h with shell := outcome.shell }
    else { h with shell := outcome.shell }.endChannel ambient channel outcome.ended

def channelEof (outcome : Outcome) : Handler :=
  if h.scp then { h with scp := false }.endChannel ambient channel outcome.ended
  else if h.sftp.isSome then
    ({ h with shell := some (h.theShell config ambient) }.drainSftpUploads ambient).endChannel
      ambient channel outcome.ended
  else if h.shellStarted ∧ h.activeChannel = some channel then
    { h with shell := outcome.shell }.endChannel ambient channel outcome.ended
  else h

end Methods

/-- The handler after an event. -/
def step (config : Config) (e : Event) (h : Handler) : Handler :=
  match e.call with
  | .channelOpenSession channel => h.tryOpenChannel channel
  | .subsystemRequest name => h.subsystemRequest name
  | .shellRequest accepted =>
    if accepted then
      { h with shellStarted := true, shell := some (h.theShell config e.ambient) }
    else h
  | .execRequest channel accepted exec ended =>
    if accepted then h.execRequest e.ambient channel exec ended else h
  | .data channel bytes outcome => h.data config e.ambient channel bytes outcome
  | .channelEof channel outcome => h.channelEof config e.ambient channel outcome
  | .channelClose channel => h.closeChannel e.ambient channel
  | .drop => h.drainSftpUploads e.ambient

/-! ### The handles of a connection -/

/-- The uploads of the write handles that are open. -/
def openUploads (ambient : Ambient) (s : SftpSession) : List CompletedUpload :=
  s.handles.toList.flatMap fun e ↦ e.2.uploads ambient

/-- The handle under these bytes is still the same one: it was not closed, and no other one was
allocated in its place. -/
def Stays (s s' : SftpSession) (key : Bytes) : Prop :=
  key ∈ s'.handles ∧ ¬ (s'.nextHandle ≠ s.nextHandle ∧ key = s.handleBytes)

instance (s s' : SftpSession) (key : Bytes) : Decidable (Stays s s' key) :=
  inferInstanceAs (Decidable (_ ∧ _))

/-- The write handles that a packet takes out of the table, each with what it received. -/
def departed (ambient : Ambient) (s s' : SftpSession) : List CompletedUpload :=
  (s.handles.toList.filter fun e ↦ ¬ Stays s s' e.1).flatMap fun e ↦ e.2.uploads ambient

/-- The write handles that packets take out of the table, one after the other. -/
def packetDepartures (ambient : Ambient) (maxUploadBytes : ℕ) :
    List Bytes → Exchange → List CompletedUpload
  | [], _ => []
  | pkt :: pkts, x =>
    let y := handlePacket ambient maxUploadBytes pkt x
    departed ambient x.session y.session ++ packetDepartures ambient maxUploadBytes pkts y

/-- One for a write handle. -/
def writes : SftpHandle → ℕ
  | .writeFile _ => 1
  | _ => 0

/-- One for a packet that opens a write handle. -/
def opened (s s' : SftpSession) : ℕ :=
  if s'.nextHandle = s.nextHandle then 0 else s'.handles[s.handleBytes]?.elim 0 writes

/-- The number of write handles that packets open. -/
def packetOpenings (ambient : Ambient) (maxUploadBytes : ℕ) : List Bytes → Exchange → ℕ :=
  fun pkts x ↦ total (handlePacket ambient maxUploadBytes)
    (fun pkt x ↦ opened x.session (handlePacket ambient maxUploadBytes pkt x).session) x pkts

/-- `data`, as a call of `feed`. -/
def feedCall (config : Config) (ambient : Ambient) (bytes : Bytes) (h : Handler) : FeedCall :=
  ⟨ambient, config.maxUploadBytes, bytes, h.theShell config ambient⟩

/-- The write handles that an event takes out of the table. In `data` these are the ones its packets
take out; any other event that ends the session or replaces it takes out all of them. -/
def departures (config : Config) (e : Event) (h : Handler) : List CompletedUpload :=
  match h.sftp with
  | none => []
  | some s =>
    match e.call with
    | .data _ bytes _ =>
      let c := feedCall config e.ambient bytes h
      packetDepartures e.ambient config.maxUploadBytes (c.packets s) (c.start s)
    | .subsystemRequest name => if name = "sftp".toList then openUploads e.ambient s else []
    | _ => if (step config e h).sftp.isNone then openUploads e.ambient s else []

/-- The number of write handles that an event opens. -/
def openings (config : Config) (e : Event) (h : Handler) : ℕ :=
  match h.sftp, e.call with
  | some s, .data _ bytes _ =>
    let c := feedCall config e.ambient bytes h
    packetOpenings e.ambient config.maxUploadBytes (c.packets s) (c.start s)
  | _, _ => 0

/-- The write handles that leave the table over a run, in order. -/
def allDepartures (config : Config) : List Event → Handler → List CompletedUpload
  | [], _ => []
  | e :: es, h => departures config e h ++ allDepartures config es (step config e h)

/-- At least one byte was received. -/
def Received (u : CompletedUpload) : Prop := 0 < u.size

instance : DecidablePred Received := fun u ↦ inferInstanceAs (Decidable (0 < u.size))

/-! ### What a packet takes out -/

section Packets

variable {ambient : Ambient} {maxUploadBytes : ℕ} {s s' : SftpSession} {key : Bytes}
  {handle : SftpHandle} {x y : Exchange}

theorem departed_of_stays (h : ∀ key ∈ s.handles, Stays s s' key) : departed ambient s s' = [] := by
  have hnone : (s.handles.toList.filter fun e ↦ ¬ Stays s s' e.1) = [] := by
    refine List.filter_eq_nil_iff.2 fun e he ↦ ?_
    have hmem := mem_handles_of_getElem? (Std.ExtTreeMap.mem_toList_iff_getElem?_eq_some.1 he)
    simpa using h e.1 hmem
  rw [departed, hnone]
  rfl

theorem departed_of_leaves (hkey : s.handles[key]? = some handle) (hleaves : ¬ Stays s s' key)
    (h : ∀ k ∈ s.handles, k ≠ key → Stays s s' k) :
    departed ambient s s' = handle.uploads ambient := by
  have hmem : (key, handle) ∈ s.handles.toList :=
    Std.ExtTreeMap.mem_toList_iff_getElem?_eq_some.2 hkey
  have hone : (s.handles.toList.filter fun e ↦ ¬ Stays s s' e.1) = [(key, handle)] := by
    refine List.perm_singleton.1 ((List.perm_ext_iff_of_nodup ((nodup_toList _).filter _)
      (List.nodup_singleton _)).2 fun e ↦ ?_)
    rw [List.mem_filter, List.mem_singleton, decide_eq_true_iff]
    constructor
    · rintro ⟨he, hgone⟩
      have hget := Std.ExtTreeMap.mem_toList_iff_getElem?_eq_some.1 he
      have hsame : e.1 = key := by
        by_contra hne
        exact hgone (h e.1 (mem_handles_of_getElem? hget) hne)
      rw [hsame, hkey] at hget
      exact Prod.ext hsame (Option.some.inj hget).symm
    · rintro rfl
      exact ⟨hmem, hleaves⟩
  rw [departed, hone, List.flatMap_singleton]

theorem length_uploads (ambient : Ambient) (handle : SftpHandle) :
    (handle.uploads ambient).length = writes handle := by
  rcases handle with ⟨entries, offset⟩ | ⟨data, metadata⟩ | file <;> rfl

/-- What a packet that brings `x` to `y` takes out: the handle it closes, whose upload it completes,
or the one in the place of the handle it allocates. Either way a write handle that was opened is
open or was taken out. -/
structure Departs (ambient : Ambient) (x y : Exchange) (lost new : List CompletedUpload) :
    Prop where
  completed : y.completed = x.completed ++ new
  departed : departed ambient x.session y.session = lost ++ new
  replaced : lost = [] ∨ y.session.nextHandle ≠ x.session.nextHandle ∧
    ∃ handle, x.session.handles[x.session.handleBytes]? = some handle ∧
      lost = handle.uploads ambient
  opened : mapSum writes y.session.handles + (lost ++ new).length =
    mapSum writes x.session.handles + opened x.session y.session

/-- A packet that only gives a handle another state. -/
theorem departs_insert {handle' : SftpHandle} (hkey : x.session.handles[key]? = some handle)
    (hwrites : writes handle' = writes handle)
    (hhandles : y.session.handles = x.session.handles.insert key handle')
    (hnext : y.session.nextHandle = x.session.nextHandle) (hcompleted : y.completed = x.completed) :
    Departs ambient x y [] [] where
  completed := by rw [hcompleted, List.append_nil]
  departed := departed_of_stays fun k hk ↦
    ⟨hhandles ▸ Std.ExtTreeMap.mem_insert.2 (.inr hk), fun h ↦ h.1 hnext⟩
  replaced := .inl rfl
  opened := by
    have hsum := mapSum_insert_of_some (w := writes) (v := handle') hkey
    rw [hhandles, Handler.opened, if_pos hnext]
    show mapSum writes (x.session.handles.insert key handle') + 0 = _
    omega

/-- **One packet.** -/
theorem departs_of_step (hstep : HandleStep ambient maxUploadBytes x y) :
    ∃ lost new, Departs ambient x y lost new := by
  cases hstep with
  | same hsession hcompleted =>
    refine ⟨[], [], by rw [hcompleted, List.append_nil], ?_, .inl rfl, ?_⟩
    · rw [hsession]
      exact departed_of_stays fun key hkey ↦ ⟨hkey, fun h ↦ h.1 rfl⟩
    · rw [hsession, Handler.opened, if_pos rfl]
      rfl
  | alloc handle hroom hopened hsession hcompleted =>
    have hnext : y.session.nextHandle ≠ x.session.nextHandle := by
      rw [hsession]
      exact nextHandle_insertHandle_ne _ handle
    have hhandles : y.session.handles =
        x.session.handles.insert x.session.handleBytes handle := by rw [hsession]; rfl
    have hstays : ∀ k ∈ x.session.handles, k ≠ x.session.handleBytes →
        Stays x.session y.session k := fun k hk hne ↦
      ⟨hhandles ▸ Std.ExtTreeMap.mem_insert.2 (.inr hk), fun h ↦ hne h.2⟩
    have hopens : Handler.opened x.session y.session = writes handle := by
      rw [Handler.opened, if_neg hnext, hhandles, Std.ExtTreeMap.getElem?_insert_self]
      rfl
    rcases hold : x.session.handles[x.session.handleBytes]? with - | old
    · refine ⟨[], [], by rw [hcompleted, List.append_nil], ?_, .inl rfl, ?_⟩
      · refine departed_of_stays fun k hk ↦ hstays k hk ?_
        rintro rfl
        rw [Std.ExtTreeMap.mem_iff_isSome_getElem?, hold] at hk
        cases hk
      · rw [hopens, hhandles, mapSum_insert_of_none hold, Nat.add_comm (writes handle)]
        rfl
    · refine ⟨old.uploads ambient, [], by rw [hcompleted, List.append_nil], ?_,
        .inr ⟨hnext, old, hold, rfl⟩, ?_⟩
      · rw [List.append_nil]
        exact departed_of_leaves hold (fun h ↦ h.2 ⟨hnext, rfl⟩) hstays
      · rw [hopens, hhandles, List.append_nil, length_uploads, mapSum_insert_of_some hold]
        exact Nat.add_comm _ _
  | update key handle handle' hkey hsame hsession hcompleted =>
    have hwrites : writes handle' = writes handle := by cases hsame <;> rfl
    have hhandles : y.session.handles = x.session.handles.insert key handle' := by rw [hsession]
    exact ⟨[], [], departs_insert hkey hwrites hhandles (by rw [hsession]) hcompleted⟩
  | write key file rawOffset chunk hkey hoffset hsession hcompleted =>
    have hhandles : y.session.handles = x.session.handles.insert key
        (.writeFile (received maxUploadBytes x.session file rawOffset chunk).1) := by rw [hsession]
    exact ⟨[], [], departs_insert hkey (by rfl) hhandles (by rw [hsession]) hcompleted⟩
  | close key handle hkey hsession hcompleted =>
    have hhandles : y.session.handles = x.session.handles.erase key := by rw [hsession]
    have hnext : y.session.nextHandle = x.session.nextHandle := by rw [hsession]
    refine ⟨[], _, hcompleted, departed_of_leaves hkey ?_ ?_, .inl rfl, ?_⟩
    · exact fun h ↦ (Std.ExtTreeMap.mem_erase.1 (hhandles ▸ h.1)).1 Std.ReflCmp.compare_self
    · intro k hk hne
      have hcmp : compare key k ≠ .eq := fun h ↦ hne (Std.LawfulEqCmp.eq_of_compare h).symm
      exact ⟨hhandles ▸ Std.ExtTreeMap.mem_erase.2 ⟨hcmp, hk⟩, fun h ↦ h.1 hnext⟩
    · rw [Handler.opened, if_pos hnext, List.nil_append, length_uploads, hhandles,
        mapSum_erase_of_some hkey]
      exact Nat.add_comm _ _

/-- A packet that allocates a handle finds no write handle with bytes in its place. -/
def PacketKeeps (ambient : Ambient) (maxUploadBytes : ℕ) (pkt : Bytes) (x : Exchange) : Prop :=
  (handlePacket ambient maxUploadBytes pkt x).session.nextHandle ≠ x.session.nextHandle →
    ∀ file, x.session.handles[x.session.handleBytes]? = some (.writeFile file) → file.size = 0

theorem packetKeeps_of_fresh {pkt : Bytes}
    (h : x.session.handles[x.session.handleBytes]?.isNone) :
    PacketKeeps ambient maxUploadBytes pkt x := by
  intro _ file hfile
  rw [hfile] at h
  cases h

theorem filter_uploads_of_size (h : ∀ file, handle = .writeFile file → file.size = 0) :
    (handle.uploads ambient).filter Received = [] := by
  rcases handle with ⟨entries, offset⟩ | ⟨data, metadata⟩ | file
  · rfl
  · rfl
  · refine List.filter_eq_nil_iff.2 fun u hu ↦ ?_
    rw [SftpHandle.uploads, List.mem_singleton] at hu
    rw [hu, decide_eq_true_iff]
    exact (h file rfl).not_gt

/-- Packets in turn: the uploads they complete are, as far as bytes were received, those of the
write handles they take out. -/
theorem packetDepartures_eq {pkts : List Bytes}
    (h : Admissible (handlePacket ambient maxUploadBytes) (PacketKeeps ambient maxUploadBytes) x
      pkts) :
    ∃ new, (handlePackets ambient maxUploadBytes pkts x).completed = x.completed ++ new ∧
      new.filter Received =
        (packetDepartures ambient maxUploadBytes pkts x).filter Received := by
  induction pkts generalizing x with
  | nil => exact ⟨[], (List.append_nil _).symm, rfl⟩
  | cons pkt pkts ih =>
    obtain ⟨hkeeps, hpkts⟩ := h
    obtain ⟨lost, first, hfirst⟩ :=
      departs_of_step (handlePacket_handles ambient maxUploadBytes x pkt)
    obtain ⟨others, hothers, hsame⟩ := ih hpkts
    have hlost : lost.filter Received = [] := by
      rcases hfirst.replaced with rfl | ⟨hnext, handle, hold, rfl⟩
      · rfl
      · exact filter_uploads_of_size fun file hfile ↦ hkeeps hnext file (hfile ▸ hold)
    refine ⟨first ++ others, ?_, ?_⟩
    · rw [← List.append_assoc, ← hfirst.completed, ← hothers]
      rfl
    · rw [packetDepartures, hfirst.departed, List.filter_append, List.filter_append,
        List.filter_append, hlost, hsame, List.nil_append]

/-- Packets in turn: every write handle they open is open or was taken out. -/
theorem length_packetDepartures (ambient : Ambient) (maxUploadBytes : ℕ) (pkts : List Bytes)
    (x : Exchange) :
    mapSum writes (handlePackets ambient maxUploadBytes pkts x).session.handles +
        (packetDepartures ambient maxUploadBytes pkts x).length =
      mapSum writes x.session.handles + packetOpenings ambient maxUploadBytes pkts x := by
  induction pkts generalizing x with
  | nil => rfl
  | cons pkt pkts ih =>
    obtain ⟨lost, new, hfirst⟩ :=
      departs_of_step (handlePacket_handles ambient maxUploadBytes x pkt)
    have hopened := hfirst.opened
    have hothers := ih (handlePacket ambient maxUploadBytes pkt x)
    rw [List.length_append] at hopened
    rw [packetOpenings] at hothers
    rw [packetDepartures, hfirst.departed, List.length_append, List.length_append, packetOpenings,
      total]
    show mapSum writes (handlePackets ambient maxUploadBytes pkts
      (handlePacket ambient maxUploadBytes pkt x)).session.handles + _ = _
    omega

end Packets

/-! ### What an event takes out -/

section Events

variable {config : Config} {ambient : Ambient} {channel : UInt32} {h h' : Handler} {e : Event}

/-- The session that is open, if any, has no handles before the shell was built. -/
def Inv (h : Handler) : Prop := h.shell = none → ∀ s, h.sftp = some s → s.handles = ∅

/-- The number of write handles that are open. -/
def openCount (h : Handler) : ℕ := h.sftp.elim 0 fun s ↦ mapSum writes s.handles

theorem length_openUploads (ambient : Ambient) (s : SftpSession) :
    (openUploads ambient s).length = mapSum writes s.handles := by
  rw [openUploads, List.length_flatMap, mapSum]
  simp only [length_uploads]

theorem filter_openUploads_of_size {s : SftpSession}
    (h : ∀ (key : Bytes) (file : WriteFile), s.handles[key]? = some (.writeFile file) →
      file.size = 0) : (openUploads ambient s).filter Received = [] := by
  rw [openUploads, List.filter_flatMap]
  refine List.flatMap_eq_nil_iff.2 fun e he ↦ filter_uploads_of_size fun file hfile ↦ ?_
  refine h e.1 file ?_
  rw [← hfile]
  exact Std.ExtTreeMap.mem_toList_iff_getElem?_eq_some.1 he

theorem filter_finishPending (ambient : Ambient) (handles : List SftpHandle) (shell : Shell)
    (done : List CompletedUpload) :
    ∃ new, (handles.foldl (finishPending ambient) (shell, done)).2 = done ++ new ∧
      new.filter Received = (handles.flatMap (SftpHandle.uploads ambient)).filter Received := by
  induction handles generalizing shell done with
  | nil => exact ⟨[], (List.append_nil _).symm, rfl⟩
  | cons handle handles ih =>
    rcases handle with ⟨entries, offset⟩ | ⟨data, metadata⟩ | file
    · exact ih shell done
    · exact ih shell done
    rw [List.foldl_cons, finishPending, List.flatMap_cons, List.filter_append]
    dsimp only
    split
    · obtain ⟨new, hnew, hfilter⟩ := ih (mirror ambient shell file)
        (done ++ [completedUpload ambient file])
      refine ⟨completedUpload ambient file :: new, ?_, ?_⟩
      · rw [hnew, List.append_assoc]
        rfl
      · rw [← hfilter, ← List.filter_append]
        rfl
    · rename_i hsize
      obtain ⟨new, hnew, hfilter⟩ := ih shell done
      refine ⟨new, hnew, ?_⟩
      rw [hfilter, filter_uploads_of_size, List.nil_append]
      rintro _ ⟨⟩
      omega

/-- What an event other than `data` or a `subsystem` request does to the session: nothing, or it
hands over what is open and ends it. -/
inductive Leaves (ambient : Ambient) (h h' : Handler) : Prop
  | kept (hsftp : h'.sftp = h.sftp) (hstored : h'.stored = h.stored) (hinv : Inv h → Inv h')
  | drained (new : List CompletedUpload) (hsftp : h'.sftp = none)
      (hstored : h'.stored = h.stored ++ new)
      (hnew : Inv h → new.filter Received =
        (h.sftp.elim [] (openUploads ambient)).filter Received)

theorem inv_of_sftp (hsftp : h.sftp = none) : Inv h := fun _ s hs ↦ by rw [hsftp] at hs; cases hs

theorem inv_of_shell {shell : Shell} (hshell : h.shell = some shell) : Inv h := fun hnone ↦ by
  rw [hshell] at hnone
  cases hnone

theorem Leaves.trans {h'' : Handler} (hfirst : Leaves ambient h h')
    (hthen : Leaves ambient h' h'') : Leaves ambient h h'' := by
  cases hfirst with
  | kept hsftp hstored hinv =>
    cases hthen with
    | kept hsftp' hstored' hinv' =>
      exact .kept (hsftp'.trans hsftp) (hstored'.trans hstored) (hinv' ∘ hinv)
    | drained new hsftp' hstored' hnew =>
      exact .drained new hsftp' (by rw [hstored', hstored]) fun h ↦ by rw [hnew (hinv h), hsftp]
  | drained new hsftp hstored hnew =>
    cases hthen with
    | kept hsftp' hstored' hinv' =>
      exact .drained new (hsftp'.trans hsftp) (hstored'.trans hstored) hnew
    | drained new' hsftp' hstored' hnew' =>
      refine .drained (new ++ new') hsftp' (by rw [hstored', hstored, List.append_assoc]) fun h ↦ ?_
      rw [List.filter_append, hnew h, hnew' (inv_of_sftp hsftp), hsftp]
      exact List.append_nil _

/-- The drain hands over every write handle that received a byte. -/
theorem drainSftpUploads_spec (ambient : Ambient) (h : Handler) : ∃ new,
    (h.drainSftpUploads ambient).sftp = none ∧
    (h.drainSftpUploads ambient).stored = h.stored ++ new ∧
    (Inv h → new.filter Received = (h.sftp.elim [] (openUploads ambient)).filter Received) := by
  rw [drainSftpUploads]
  split
  · rename_i hsftp
    exact ⟨[], hsftp, (List.append_nil _).symm, fun _ ↦ by rw [hsftp]; rfl⟩
  · rename_i s hsftp hshell
    refine ⟨[], rfl, (List.append_nil _).symm, fun hinv ↦ ?_⟩
    rw [hsftp, Option.elim_some, openUploads, hinv hshell s hsftp]
    rfl
  · rename_i s shell hsftp hshell
    obtain ⟨new, hnew, hfilter⟩ := filter_finishPending ambient
      (s.handles.toList.map Prod.snd) shell []
    refine ⟨new, rfl, by rw [← List.nil_append new, ← hnew]; rfl, fun _ ↦ ?_⟩
    rw [hfilter, hsftp, Option.elim_some, openUploads, List.flatMap_map]

theorem leaves_drainSftpUploads (ambient : Ambient) (h : Handler) :
    Leaves ambient h (h.drainSftpUploads ambient) := by
  obtain ⟨new, hsftp, hstored, hnew⟩ := drainSftpUploads_spec ambient h
  exact .drained new hsftp hstored hnew

theorem leaves_closeChannel (ambient : Ambient) (channel : UInt32) (h : Handler) :
    Leaves ambient h (h.closeChannel ambient channel) := by
  rw [closeChannel]
  split
  · obtain ⟨new, -, hstored, hnew⟩ := drainSftpUploads_spec ambient h
    exact .drained new rfl hstored hnew
  · exact .kept rfl rfl id

theorem leaves_endChannel (ambient : Ambient) (channel : UInt32) (sent : Bool) (h : Handler) :
    Leaves ambient h (h.endChannel ambient channel sent) := by
  rw [endChannel]
  split
  · exact leaves_closeChannel ambient channel h
  · exact .kept rfl rfl id

/-- Another shell, where there is one or no session depends on it. -/
theorem leaves_shell (shell : Option Shell) (hshell : shell.isSome ∨ h.sftp = none) :
    Leaves ambient h { h with shell := shell } := by
  refine .kept rfl rfl fun _ ↦ ?_
  rcases hshell with hshell | hsftp
  · obtain ⟨shell, rfl⟩ := Option.isSome_iff_exists.1 hshell
    exact inv_of_shell rfl
  · exact inv_of_sftp hsftp

theorem leaves_execRequest (ambient : Ambient) (channel : UInt32) (exec : Exec) (ended : Bool)
    (h : Handler) : Leaves ambient h (h.execRequest ambient channel exec ended) := by
  rcases exec with - | - | shell
  · exact .kept rfl rfl id
  · exact leaves_endChannel ambient channel ended h
  · exact (leaves_shell (some shell) (.inl rfl)).trans (leaves_endChannel ambient channel ended _)

theorem leaves_data (config : Config) (ambient : Ambient) (channel : UInt32) (bytes : Bytes)
    (outcome : Outcome) (hsftp : h.sftp = none) :
    Leaves ambient h (h.data config ambient channel bytes outcome) := by
  rw [data]
  split
  · rename_i s hs
    rw [hsftp] at hs
    cases hs
  split
  · exact leaves_shell outcome.shell (.inr hsftp)
  · exact (leaves_shell outcome.shell (.inr hsftp)).trans
      (leaves_endChannel ambient channel outcome.ended _)

theorem leaves_channelEof (config : Config) (ambient : Ambient) (channel : UInt32)
    (outcome : Outcome) (h : Handler) :
    Leaves ambient h (h.channelEof config ambient channel outcome) := by
  have hend := leaves_endChannel ambient channel outcome.ended
  rw [channelEof]
  split
  · exact (Leaves.kept rfl rfl id : Leaves ambient h { h with scp := false }).trans (hend _)
  split
  · exact ((leaves_shell (some (h.theShell config ambient)) (.inl rfl)).trans
      (leaves_drainSftpUploads ambient _)).trans (hend _)
  rename_i hsftp
  split
  · exact (leaves_shell outcome.shell (.inr (Option.not_isSome_iff_eq_none.1 hsftp))).trans (hend _)
  · exact .kept rfl rfl id

/-- The write handles that leave with the session. -/
def left (ambient : Ambient) (h h' : Handler) : List CompletedUpload :=
  h.sftp.elim [] fun s ↦ if h'.sftp.isNone then openUploads ambient s else []

/-- What a step owes: each write handle with bytes that it takes out is handed over, once, and each
write handle that it opens is open or taken out. -/
structure Settles (h h' : Handler) (gone : List CompletedUpload) (opened : ℕ) : Prop where
  stored : ∃ new, h'.stored = h.stored ++ new ∧ new.filter Received = gone.filter Received
  inv : Inv h'
  opened : openCount h' + gone.length = openCount h + opened

theorem Leaves.settles (hleaves : Leaves ambient h h') (hinv : Inv h) :
    Settles h h' (left ambient h h') 0 := by
  cases hleaves with
  | kept hsftp hstored hkeep =>
    have hleft : left ambient h h' = [] := by
      rw [left, hsftp]
      rcases h.sftp with - | s <;> rfl
    rw [hleft]
    exact ⟨⟨[], by rw [hstored, List.append_nil], rfl⟩, hkeep hinv, by rw [openCount, hsftp]; rfl⟩
  | drained new hsftp hstored hnew =>
    have hleft : left ambient h h' = h.sftp.elim [] (openUploads ambient) := by
      rw [left, hsftp]
      rfl
    rw [hleft]
    refine ⟨⟨new, hstored, hnew hinv⟩, inv_of_sftp hsftp, ?_⟩
    rw [openCount, openCount, hsftp]
    rcases h.sftp with - | s
    · rfl
    · show 0 + (openUploads ambient s).length = _
      rw [length_openUploads, Nat.zero_add]
      rfl

/-- An event puts no session with uploads in progress aside, and no handle in the place of one. -/
def Keeps (config : Config) (e : Event) (h : Handler) : Prop :=
  ∀ s, h.sftp = some s →
    match e.call with
    | .data _ bytes _ =>
      let c := feedCall config e.ambient bytes h
      Admissible (handlePacket e.ambient config.maxUploadBytes)
        (PacketKeeps e.ambient config.maxUploadBytes) (c.start s) (c.packets s)
    | .subsystemRequest name => name = "sftp".toList →
      ∀ (key : Bytes) (file : WriteFile), s.handles[key]? = some (.writeFile file) → file.size = 0
    | _ => True

theorem settles_data (config : Config) (ambient : Ambient) (channel : UInt32) (bytes : Bytes)
    (outcome : Outcome) {s : SftpSession} (hsftp : h.sftp = some s)
    (hkeeps : Admissible (handlePacket ambient config.maxUploadBytes)
      (PacketKeeps ambient config.maxUploadBytes) ((feedCall config ambient bytes h).start s)
      ((feedCall config ambient bytes h).packets s)) :
    Settles h (h.data config ambient channel bytes outcome)
      (packetDepartures ambient config.maxUploadBytes ((feedCall config ambient bytes h).packets s)
        ((feedCall config ambient bytes h).start s))
      (packetOpenings ambient config.maxUploadBytes ((feedCall config ambient bytes h).packets s)
        ((feedCall config ambient bytes h).start s)) := by
  have hdata : h.data config ambient channel bytes outcome =
      { h with
        sftp := some ((feedCall config ambient bytes h).exchange s).session
        shell := some ((feedCall config ambient bytes h).exchange s).shell
        stored := h.stored ++ ((feedCall config ambient bytes h).exchange s).completed } := by
    rw [data, hsftp]
    rfl
  obtain ⟨left, kept, -, -, hexchange, -⟩ := (feedCall config ambient bytes h).exchange_spec s
  obtain ⟨new, hnew, hfilter⟩ := packetDepartures_eq hkeeps
  refine ⟨⟨new, ?_, hfilter⟩, ?_, ?_⟩
  · rw [hdata, hexchange]
    show h.stored ++ _ = _
    rw [← List.nil_append new]
    exact congrArg (h.stored ++ ·) hnew
  · rw [hdata]
    exact inv_of_shell rfl
  · rw [hdata, openCount, openCount, hsftp, hexchange]
    exact length_packetDepartures ambient config.maxUploadBytes _ _

theorem settles_subsystemRequest (ambient : Ambient) (name : Str) (hinv : Inv h)
    (hkeeps : ∀ s, h.sftp = some s → name = "sftp".toList →
      ∀ (key : Bytes) (file : WriteFile), s.handles[key]? = some (.writeFile file) →
        file.size = 0) :
    Settles h (h.subsystemRequest name)
      (h.sftp.elim [] fun s ↦ if name = "sftp".toList then openUploads ambient s else []) 0 := by
  rw [subsystemRequest]
  split
  · rename_i hname
    refine ⟨⟨[], (List.append_nil _).symm, ?_⟩, ?_, ?_⟩
    · rcases hsftp : h.sftp with - | s
      · rfl
      · exact (filter_openUploads_of_size (hkeeps s hsftp hname)).symm
    · rintro - s ⟨⟩
      rfl
    · rw [openCount, openCount]
      show mapSum writes SftpSession.new.handles + _ = _
      rw [show SftpSession.new.handles = ∅ from rfl, mapSum_empty, Nat.zero_add]
      rcases h.sftp with - | s
      · rfl
      · exact length_openUploads ambient s
  · have hnone : (h.sftp.elim [] fun _ ↦ []) = ([] : List CompletedUpload) := by
      rcases h.sftp with - | s <;> rfl
    rw [hnone]
    exact ⟨⟨[], (List.append_nil _).symm, rfl⟩, hinv, rfl⟩

theorem settles_of_leaves (hinv : Inv h)
    (hsubsystem : ∀ name, e.call ≠ .subsystemRequest name)
    (hdata : ∀ channel bytes outcome, e.call = .data channel bytes outcome → h.sftp = none)
    (hleaves : Leaves e.ambient h (step config e h)) :
    Settles h (step config e h) (departures config e h) (openings config e h) := by
  have hdepartures : departures config e h = left e.ambient h (step config e h) := by
    rw [departures, left]
    rcases hsftp : h.sftp with - | s
    · rfl
    · dsimp only
      split
      · rename_i hcall
        rw [hdata _ _ _ hcall] at hsftp
        cases hsftp
      · rename_i hcall
        exact absurd hcall (hsubsystem _)
      · rfl
  have hopenings : openings config e h = 0 := by
    rw [openings]
    split
    · rename_i hsftp hcall
      rw [hdata _ _ _ hcall] at hsftp
      cases hsftp
    · rfl
  rw [hdepartures, hopenings]
  exact hleaves.settles hinv

/-- **One event.** -/
theorem settles_step (hinv : Inv h) (hkeeps : Keeps config e h) :
    Settles h (step config e h) (departures config e h) (openings config e h) := by
  rcases e with ⟨ambient, call⟩
  rcases call with channel | name | accepted | ⟨channel, accepted, exec, ended⟩ |
    ⟨channel, bytes, outcome⟩ | ⟨channel, outcome⟩ | channel | -
  case channelOpenSession =>
    refine settles_of_leaves hinv nofun nofun ?_
    show Leaves ambient h (h.tryOpenChannel channel)
    rw [tryOpenChannel]
    split <;> exact .kept rfl rfl id
  case subsystemRequest =>
    have hsettles := settles_subsystemRequest ambient name hinv hkeeps
    have hdepartures : departures config ⟨ambient, .subsystemRequest name⟩ h =
        h.sftp.elim [] fun s ↦ if name = "sftp".toList then openUploads ambient s else [] := by
      rw [departures]
      rcases h.sftp with - | s <;> rfl
    have hopenings : openings config ⟨ambient, .subsystemRequest name⟩ h = 0 := by
      rw [openings]
      rcases h.sftp with - | s <;> rfl
    rw [hdepartures, hopenings]
    exact hsettles
  case shellRequest =>
    refine settles_of_leaves hinv nofun nofun ?_
    show Leaves ambient h (if accepted then _ else h)
    split
    · exact .kept rfl rfl fun _ ↦ inv_of_shell rfl
    · exact .kept rfl rfl id
  case execRequest =>
    refine settles_of_leaves hinv nofun nofun ?_
    show Leaves ambient h (if accepted then h.execRequest ambient channel exec ended else h)
    split
    · exact leaves_execRequest ambient channel exec ended h
    · exact .kept rfl rfl id
  case data =>
    rcases hsftp : h.sftp with - | s
    · exact settles_of_leaves hinv nofun (fun _ _ _ _ ↦ hsftp)
        (leaves_data config ambient channel bytes outcome hsftp)
    · have hsettles := settles_data config ambient channel bytes outcome hsftp (hkeeps s hsftp)
      rw [departures, openings, hsftp]
      exact hsettles
  case channelEof =>
    exact settles_of_leaves hinv nofun nofun (leaves_channelEof config ambient channel outcome h)
  case channelClose =>
    exact settles_of_leaves hinv nofun nofun (leaves_closeChannel ambient channel h)
  case drop =>
    exact settles_of_leaves hinv nofun nofun (leaves_drainSftpUploads ambient h)

end Events

/-! ### Every upload once -/

section Runs

variable {config : Config} {h h' h'' : Handler}

theorem Settles.trans {gone gone' : List CompletedUpload} {opened opened' : ℕ}
    (hfirst : Settles h h' gone opened) (hthen : Settles h' h'' gone' opened') :
    Settles h h'' (gone ++ gone') (opened + opened') := by
  obtain ⟨new, hnew, hfilter⟩ := hfirst.stored
  obtain ⟨new', hnew', hfilter'⟩ := hthen.stored
  refine ⟨⟨new ++ new', by rw [hnew', hnew, List.append_assoc], ?_⟩, hthen.inv, ?_⟩
  · rw [List.filter_append, List.filter_append, hfilter, hfilter']
  · have hopened := hfirst.opened
    have hopened' := hthen.opened
    rw [List.length_append]
    omega

theorem settles_run {es : List Event} (hkeeps : Admissible (step config) (Keeps config) h es)
    (hinv : Inv h) :
    Settles h (run (step config) h es) (allDepartures config es h)
      (total (step config) (openings config) h es) := by
  induction es generalizing h with
  | nil => exact ⟨⟨[], (List.append_nil _).symm, rfl⟩, hinv, rfl⟩
  | cons e es ih =>
    have hstep := settles_step hinv hkeeps.1
    exact hstep.trans (ih hkeeps.2 hstep.inv)

end Runs

/-- **No upload is lost or doubled.** Take any calls of the handler, then the end of the connection,
where no `subsystem` request replaces a session with uploads in progress and no handle number comes
round to such an upload. Every write handle that was opened leaves the table, once; and the uploads
with bytes handed to `store_sftp_upload` are, one for one and in order, those of the write handles
that left it with bytes. -/
theorem uploads_handed_once (config : Config) (es : List Event) (ambient : Ambient)
    (h : Admissible (step config) (Keeps config) new es) :
    (allDepartures config (es ++ [⟨ambient, .drop⟩]) new).length =
      total (step config) (openings config) new (es ++ [⟨ambient, .drop⟩]) ∧
    (run (step config) new (es ++ [⟨ambient, .drop⟩])).stored.filter Received =
      (allDepartures config (es ++ [⟨ambient, .drop⟩]) new).filter Received := by
  have hkeeps : Admissible (step config) (Keeps config) new (es ++ [⟨ambient, .drop⟩]) :=
    admissible_append.2 ⟨h, fun _ _ ↦ trivial, trivial⟩
  have hsettles := settles_run hkeeps (inv_of_sftp rfl)
  obtain ⟨stored, hstored, hfilter⟩ := hsettles.stored
  refine ⟨?_, by rw [hstored]; exact hfilter⟩
  have hend : openCount (run (step config) new (es ++ [⟨ambient, .drop⟩])) = 0 := by
    obtain ⟨-, hsftp, -, -⟩ := drainSftpUploads_spec ambient (run (step config) new es)
    rw [run_append, openCount]
    show Option.elim ((run (step config) new es).drainSftpUploads ambient).sftp _ _ = 0
    rw [hsftp]
    rfl
  have hopened := hsettles.opened
  rw [hend, Nat.zero_add] at hopened
  rw [hopened]
  exact Nat.zero_add _

/-- A channel with an upload in progress. -/
def uploading : List Event :=
  [⟨⟨0, id⟩, .channelOpenSession 0⟩, ⟨⟨0, id⟩, .subsystemRequest "sftp".toList⟩,
    ⟨⟨0, id⟩, .data 0 (wire (sparseUpload.map Request.pkt)) ⟨none, false⟩⟩]

def testConfig : Config := ⟨1024, fun _ ↦ ⟨Vfs.new 0, 0, 0, 0⟩⟩

theorem uploads_handed_once_uploading :
    (run (step testConfig) new (uploading ++ [⟨⟨0, id⟩, .drop⟩])).stored.length = 1 ∧
    (run (step testConfig) new (uploading ++ [⟨⟨0, id⟩, .drop⟩])).stored.filter Received =
      (allDepartures testConfig (uploading ++ [⟨⟨0, id⟩, .drop⟩]) new).filter Received := by
  refine ⟨by decide +kernel,
    (uploads_handed_once testConfig uploading ⟨0, id⟩ ⟨nofun, nofun, ?_⟩).2⟩
  refine ⟨fun s hs ↦ ?_, trivial⟩
  obtain rfl : SftpSession.new = s := Option.some.inj hs
  show Admissible _ _ _ (FeedCall.packets _ SftpSession.new)
  rw [show FeedCall.packets _ SftpSession.new = sparseUpload.map Request.pkt by decide +kernel]
  exact ⟨packetKeeps_of_fresh (by decide +kernel), packetKeeps_of_fresh (by decide +kernel),
    trivial⟩

/-- A second `subsystem` request drops the upload in progress. -/
theorem second_subsystem_loses_upload :
    ¬ ∀ (config : Config) (es : List Event) (ambient : Ambient),
      (run (step config) new (es ++ [⟨ambient, .drop⟩])).stored.filter Received =
        (allDepartures config (es ++ [⟨ambient, .drop⟩]) new).filter Received := by
  intro h
  have hlost := congrArg List.length (h testConfig
    (uploading ++ [⟨⟨0, id⟩, .subsystemRequest "sftp".toList⟩]) ⟨0, id⟩)
  exact absurd hlost (by decide +kernel)

end Handler

end Ssh

end Mimic
