import Mimic.Foundation.GuardedRun
import Mimic.Network.Scp
import Mimic.Shell.Arith

/-!
# The SCP sink

`ScpSink` of `network/scp.rs`: control lines and file bodies off a byte stream. The sink works byte
by byte, so it does not matter how the stream is cut into chunks (`feed_append`).
-/

namespace Mimic

namespace Scp

open Sftp GuardedRun

/-- A file body under way. -/
structure Incoming where
  name : Str
  mode : UInt32
  size : ℕ
  remaining : ℕ
  data : Bytes
  /-- The bytes the hasher was fed. -/
  hashed : Bytes
  truncated : Bool

/-- The sink. -/
structure ScpSink where
  target : Str
  recursive : Bool
  maxBytes : ℕ
  dirs : List Str
  buf : Bytes
  file : Option Incoming

def ScpSink.new (target : Str) (recursive : Bool) (maxBytes : ℕ) : ScpSink :=
  ⟨target, recursive, maxBytes, [], [], none⟩

/-! ### Control lines -/

/-- `from_str_radix` of an unsigned number: an optional plus and at least one digit, in range. -/
def parseUnsigned (radix bits : ℕ) (text : Str) : Option ℕ :=
  let digits := if text.head? = some '+' then text.tail else text
  if digits = [] then none
  else (Arith.digitsValue radix digits).filter (· < 2 ^ bits)

/-- `replace("..", "_")`. -/
def collapseDots : Str → Str
  | '.' :: '.' :: rest => '_' :: collapseDots rest
  | c :: rest => c :: collapseDots rest
  | [] => []

/-- The name of a control line: without control characters, separators and `..`, in this order. -/
def sanitizeName (rawName : Str) : Str :=
  let stripped := rawName.filter fun c ↦ !Text.isControl c
  let name := collapseDots (stripped.map fun c ↦ if c = '/' ∨ c = '\\' then '_' else c)
  if name = [] then "unnamed".toList else name

/-- A `C` or `D` control line: kind and mode, size and name. -/
def parseCd (line : Str) : Option (UInt32 × ℕ × Str) :=
  match line.span (· ≠ ' ') with
  | (_, []) => none
  | (modeField, _ :: rest) =>
    match rest.span (· ≠ ' ') with
    | (_, []) => none
    | (sizeField, _ :: rawName) =>
      match modeField with
      | [] => none
      | kind :: digits =>
        -- `get(1..)` is `None` inside of a character
        if kind.utf8Size ≠ 1 then none
        else do
          let mode ← parseUnsigned 8 32 digits
          let size ← parseUnsigned 10 64 sizeField
          return (UInt32.ofNat mode, size, sanitizeName (Text.trim rawName))

/-- How many nested directories the sink keeps. -/
def maxScpDepth : ℕ := 32

/-- The longest control line. -/
def maxControlLine : ℕ := 8192

/-- Process one control line, without its newline. -/
def ScpSink.handleControl (sink : ScpSink) (line : Bytes) : ScpSink :=
  let text := Text.fromUtf8Lossy line
  match text.head? with
  | some 'C' =>
    match parseCd text with
    | some (mode, size, name) => { sink with file := some ⟨name, mode, size, size, [], [], false⟩ }
    | none => sink
  | some 'D' =>
    match parseCd text with
    | some (_, _, name) =>
      if sink.dirs.length < maxScpDepth then { sink with dirs := sink.dirs ++ [name] } else sink
    | none => sink
  | some 'E' => { sink with dirs := sink.dirs.dropLast }
  | _ => sink

/-! ### The byte stream -/

/-- What a call of `feed` works on: the sink, the acknowledgements and the files completed. -/
structure Feed where
  sink : ScpSink
  acks : Bytes
  done : List CompletedFile

/-- One byte of a body. -/
def Incoming.receive (file : Incoming) (maxBytes : ℕ) (b : UInt8) : Incoming :=
  let file := { file with hashed := file.hashed ++ [b], remaining := file.remaining - 1 }
  if file.data.length < maxBytes then { file with data := file.data ++ [b] }
  else { file with truncated := true }

/-- The file of a body that is complete. -/
def Incoming.completed (sha256 : Bytes → Bytes) (dirs : List Str) (file : Incoming) :
    CompletedFile where
  name := file.name
  relDir := Vfs.joinSlash dirs
  mode := file.mode
  data := file.data
  size := file.size
  payloadSha256 := hex (sha256 file.hashed)
  truncated := file.truncated

/-- The loop of `feed` on one byte. -/
def feedByte (sha256 : Bytes → Bytes) (b : UInt8) (x : Feed) : Feed :=
  match x.sink.file with
  | some file =>
    if file.remaining > 0 then
      { x with sink := { x.sink with file := some (file.receive x.sink.maxBytes b) } }
    else
      -- the byte after the body is the trailing NUL
      { sink := { x.sink with file := none }
        acks := x.acks ++ [0]
        done := x.done ++ [file.completed sha256 x.sink.dirs] }
  | none =>
    if b = 10 then
      { x with
        sink := { x.sink with buf := [] }.handleControl x.sink.buf
        acks := x.acks ++ [0] }
    else if b ≠ 13 then
      if x.sink.buf.length < maxControlLine then
        { x with sink := { x.sink with buf := x.sink.buf ++ [b] } }
      else { x with sink := { x.sink with buf := [], file := none, dirs := [] } }
    else x

/-- Consume some bytes. -/
def feed (sha256 : Bytes → Bytes) (sink : ScpSink) (data : Bytes) : Feed :=
  run (feedByte sha256) ⟨sink, [], []⟩ data

/-- Consume one chunk after the other, collecting the files that each call completes. -/
def feedAll (sha256 : Bytes → Bytes) (sink : ScpSink) : List Bytes → ScpSink × List CompletedFile
  | [] => (sink, [])
  | chunk :: chunks =>
    let fed := feed sha256 sink chunk
    let rest := feedAll sha256 fed.sink chunks
    (rest.1, fed.done ++ rest.2)

section Chunks

variable {sha256 : Bytes → Bytes}

/-- A byte does not look at what was acknowledged and completed before. -/
theorem feedByte_behind (b : UInt8) (x : Feed) (acks : Bytes) (done : List CompletedFile) :
    feedByte sha256 b ⟨x.sink, acks ++ x.acks, done ++ x.done⟩ =
      ⟨(feedByte sha256 b x).sink, acks ++ (feedByte sha256 b x).acks,
        done ++ (feedByte sha256 b x).done⟩ := by
  obtain ⟨sink, acks', done'⟩ := x
  simp only [feedByte]
  rcases sink.file with - | file
  · dsimp only
    split_ifs <;> simp only [List.append_assoc]
  · dsimp only
    split_ifs <;> simp only [List.append_assoc]

theorem run_feedByte_behind (data : Bytes) (x : Feed) (acks : Bytes) (done : List CompletedFile) :
    run (feedByte sha256) ⟨x.sink, acks ++ x.acks, done ++ x.done⟩ data =
      ⟨(run (feedByte sha256) x data).sink, acks ++ (run (feedByte sha256) x data).acks,
        done ++ (run (feedByte sha256) x data).done⟩ := by
  induction data generalizing x with
  | nil => rfl
  | cons b data ih => rw [run_cons, feedByte_behind, ih, run_cons]

theorem feed_append (sink : ScpSink) (data data' : Bytes) :
    feed sha256 sink (data ++ data') =
      ⟨(feed sha256 (feed sha256 sink data).sink data').sink,
        (feed sha256 sink data).acks ++ (feed sha256 (feed sha256 sink data).sink data').acks,
        (feed sha256 sink data).done ++ (feed sha256 (feed sha256 sink data).sink data').done⟩ := by
  have hbehind : run (feedByte sha256) ⟨(feed sha256 sink data).sink,
      (feed sha256 sink data).acks ++ [], (feed sha256 sink data).done ++ []⟩ data' = _ :=
    run_feedByte_behind data' ⟨_, [], []⟩ _ _
  rw [List.append_nil, List.append_nil] at hbehind
  rw [feed, run_append]
  exact hbehind

/-- **Chunks do not matter**: however a stream is cut, the sink ends in the same state and completes
the same files. -/
theorem feedAll_eq (sink : ScpSink) (chunks : List Bytes) :
    feedAll sha256 sink chunks =
      ((feed sha256 sink chunks.flatten).sink, (feed sha256 sink chunks.flatten).done) := by
  induction chunks generalizing sink with
  | nil => rfl
  | cons chunk chunks ih => rw [feedAll, List.flatten_cons, feed_append, ih]

/-! ### The two hashes -/

/-- As long as nothing is cut off, what was hashed is what is kept. -/
structure Whole (sha256 : Bytes → Bytes) (x : Feed) : Prop where
  file : ∀ file, x.sink.file = some file → file.truncated = false → file.hashed = file.data
  done : ∀ file ∈ x.done, file.truncated = false → file.payloadSha256 = hex (sha256 file.data)

/-- A control line starts a file of which nothing is there, or keeps the one there is. -/
theorem handleControl_file (sink : ScpSink) (line : Bytes) :
    (sink.handleControl line).file = sink.file ∨
      ∃ name mode size, (sink.handleControl line).file =
        some ⟨name, mode, size, size, [], [], false⟩ := by
  rw [ScpSink.handleControl]
  split
  · split
    · exact .inr ⟨_, _, _, rfl⟩
    · exact .inl rfl
  · split
    · split <;> exact .inl rfl
    · exact .inl rfl
  · exact .inl rfl
  · exact .inl rfl

/-- **One byte.** -/
theorem Whole.step {x : Feed} (h : Whole sha256 x) (b : UInt8) :
    Whole sha256 (feedByte sha256 b x) := by
  rw [feedByte]
  split
  · rename_i file hfile
    split
    · refine ⟨fun file' hfile' htruncated ↦ ?_, h.done⟩
      obtain rfl := Option.some.inj hfile'
      rw [Incoming.receive] at htruncated ⊢
      dsimp only at htruncated ⊢
      split at htruncated
      · rename_i hroom
        rw [if_pos hroom, h.file file hfile htruncated]
      · cases htruncated
    · refine ⟨nofun, fun file' hfile' htruncated ↦ ?_⟩
      rcases List.mem_append.mp hfile' with hmem | hmem
      · exact h.done file' hmem htruncated
      · obtain rfl := List.mem_singleton.mp hmem
        exact congrArg (fun bytes ↦ hex (sha256 bytes)) (h.file file hfile htruncated)
  · rename_i hfile
    split
    · refine ⟨fun file hfile' htruncated ↦ ?_, h.done⟩
      rcases handleControl_file { x.sink with buf := [] } x.sink.buf with hsame | ⟨_, _, _, hnew⟩
      · exact absurd (hfile'.symm.trans (hsame.trans hfile)) (Option.some_ne_none _)
      · obtain rfl := Option.some.inj (hnew.symm.trans hfile')
        rfl
    split
    · split
      · exact ⟨h.file, h.done⟩
      · exact ⟨nofun, h.done⟩
    · exact h

theorem Whole.feed {sink : ScpSink} (h : Whole sha256 ⟨sink, [], []⟩) (data : Bytes) :
    Whole sha256 (feed sha256 sink data) :=
  invariant_run admissible_true (fun b _ _ hx ↦ hx.step b) h

/-- **The hashes of a file**: whatever was sent, and however it was cut, a file that is not marked
as truncated has the hash of its contents. -/
theorem feedAll_hash (target : Str) (recursive : Bool) (maxBytes : ℕ) (chunks : List Bytes) :
    ∀ file ∈ (feedAll sha256 (.new target recursive maxBytes) chunks).2, file.truncated = false →
      file.payloadSha256 = hex (sha256 file.data) := by
  have hstart : Whole sha256 ⟨.new target recursive maxBytes, [], []⟩ := ⟨nofun, nofun⟩
  rw [feedAll_eq]
  exact (hstart.feed chunks.flatten).done

end Chunks

end Scp

end Mimic
