import Mimic.Network.ScpSink
import Mimic.Vfs.Placement

/-!
# What the SCP sink makes of a stream

A recursive transfer is a list of messages (`Message`), which the sink is sent as bytes (`encode`).
It acknowledges every control line and every file, and takes in modes, sizes and bodies as they were
sent (`run_encode`).

It has room for the names of 32 open directories. The end of a directory that had no room takes the
name of another one away, so that the files behind it come out in the wrong directory, until the
outermost directory is closed (`decodes_iff`).
-/

namespace Mimic

namespace Scp

open Sftp GuardedRun

/-! ### Messages -/

/-- The fields of a `C` or `D` line. -/
structure Header where
  mode : List (Fin 8)
  size : List (Fin 10)
  name : Bytes

/-- The number that some digits denote. -/
def value (radix : ℕ) (digits : List (Fin radix)) : ℕ :=
  digits.foldl (fun acc (d : Fin radix) ↦ acc * radix + d) 0

def digitByte (d : ℕ) : UInt8 := UInt8.ofNat (48 + d)

def digitChar (d : ℕ) : Char := Char.ofNat (48 + d)

def digitBytes {radix : ℕ} (digits : List (Fin radix)) : Bytes :=
  digits.map fun d : Fin radix ↦ digitByte d

def digitText {radix : ℕ} (digits : List (Fin radix)) : Str :=
  digits.map fun d : Fin radix ↦ digitChar d

/-- The name of a line, as the sink has it: a carriage return is dropped wherever it is. -/
def sanitized (name : Bytes) : Str :=
  sanitizeName (Text.trim (Text.fromUtf8Lossy (name.filter (· ≠ 13))))

/-- One message, with what follows its control line. -/
inductive Message
  /-- A `D` line. -/
  | directory (header : Header)
  /-- A `C` line, the body, and the byte behind it. -/
  | file (header : Header) (body : Bytes) (trailing : UInt8)
  /-- An `E` line. -/
  | endDirectory
  /-- A `T` line. -/
  | times (rest : Bytes)

/-- The bytes of a `C` or `D` line. -/
def Header.line (header : Header) (kind : UInt8) : Bytes :=
  kind :: (digitBytes header.mode ++ 32 :: (digitBytes header.size ++ 32 :: header.name))

namespace Message

/-- The control line, without its newline. -/
def line : Message → Bytes
  | directory header => header.line 68
  | file header .. => header.line 67
  | endDirectory => [69]
  | times rest => 84 :: rest

/-- What follows the control line. -/
def payload : Message → Bytes
  | file _ body trailing => body ++ [trailing]
  | _ => []

end Message

/-- The bytes of a stream. -/
def encode (ms : List Message) : Bytes := ms.flatMap fun m ↦ m.line ++ 10 :: m.payload

/-- Mode and size are there and in range, and so is the name. -/
structure Header.WellFormed (header : Header) : Prop where
  mode_ne_nil : header.mode ≠ []
  mode_lt : value 8 header.mode < 2 ^ 32
  size_ne_nil : header.size ≠ []
  size_lt : value 10 header.size < 2 ^ 64
  name_ne_nil : header.name ≠ []

/-- The fields are right, and the body is as long as they say. -/
def Message.FieldsWellFormed : Message → Prop
  | directory header => header.WellFormed
  | file header body _ => header.WellFormed ∧ body.length = value 10 header.size
  | _ => True

/-- The message is well formed: its control line is one line, and within the limit. -/
structure Message.WellFormed (m : Message) : Prop where
  fields : m.FieldsWellFormed
  newline_not_mem : 10 ∉ m.line
  length_le : m.line.length ≤ maxControlLine

/-! ### What was sent -/

section Sent

variable (sha256 : Bytes → Bytes) (maxBytes : ℕ)

/-- A file that was sent, below these directories. -/
def sentFile (dirs : List Str) (header : Header) (body : Bytes) : CompletedFile where
  name := sanitized header.name
  relDir := Vfs.joinSlash dirs
  mode := UInt32.ofNat (value 8 header.mode)
  data := body.take maxBytes
  size := value 10 header.size
  payloadSha256 := hex (sha256 body)
  truncated := value 10 header.size > maxBytes

/-- The file of a message, if it is one. -/
def filesOf (dirs : List Str) : Message → List CompletedFile
  | .file header body _ => [sentFile sha256 maxBytes dirs header body]
  | _ => []

/-- The directories that are open behind a message. -/
def opened (dirs : List Str) : Message → List Str
  | .directory header => dirs ++ [sanitized header.name]
  | .endDirectory => dirs.dropLast
  | _ => dirs

/-- The directories that the sink has behind a message. -/
def kept (dirs : List Str) : Message → List Str
  | .directory header =>
    if dirs.length < maxScpDepth then dirs ++ [sanitized header.name] else dirs
  | .endDirectory => dirs.dropLast
  | _ => dirs

/-- The files of a stream, each with the first 32 of the directories that are open around it. -/
def sent : List Str → List Message → List CompletedFile
  | _, [] => []
  | dirs, m :: ms => filesOf sha256 maxBytes (dirs.take maxScpDepth) m ++ sent (opened dirs m) ms

/-- The files that the sink makes of a stream. -/
def received : List Str → List Message → List CompletedFile
  | _, [] => []
  | dirs, m :: ms => filesOf sha256 maxBytes dirs m ++ received (kept dirs m) ms

/-- The file that a `C` line announces. -/
def announced (header : Header) : Incoming :=
  ⟨sanitized header.name, UInt32.ofNat (value 8 header.mode), value 10 header.size,
    value 10 header.size, [], [], false⟩

/-- The sink behind the control line of a message. -/
def ScpSink.behind (sink : ScpSink) : Message → ScpSink
  | .file header _ _ => { sink with file := some (announced header) }
  | m => { sink with dirs := kept sink.dirs m }

end Sent

/-! ### Control lines -/

section Lines

variable {header : Header} {rest : Bytes}

theorem digitValue_digitChar : ∀ radix ≤ 10, ∀ d < radix,
    Arith.digitValue radix (digitChar d) = some d := by
  decide

theorem digitsValue_digits {radix : ℕ} (hradix : radix ≤ 10) (digits : List (Fin radix)) :
    Arith.digitsValue radix (digitText digits) = some (value radix digits) := by
  have hfrom : ∀ acc, (digitText digits).foldlM
      (fun acc c ↦ (Arith.digitValue radix c).map (acc * radix + ·)) acc =
      some (digits.foldl (fun acc (d : Fin radix) ↦ acc * radix + d) acc) := by
    intro acc
    induction digits generalizing acc with
    | nil => rfl
    | cons d digits ih =>
      rw [digitText, List.map_cons, List.foldlM_cons,
        digitValue_digitChar radix hradix d d.isLt]
      exact ih _
  exact hfrom 0

/-- A number that is in range is read back. -/
theorem parseUnsigned_digits {radix bits : ℕ} (hradix : radix ≤ 10) {digits : List (Fin radix)}
    (hne : digits ≠ []) (hlt : value radix digits < 2 ^ bits) :
    parseUnsigned radix bits (digitText digits) = some (value radix digits) := by
  have hplus : ∀ d < 10, digitChar d ≠ '+' := by decide
  obtain ⟨d, digits, rfl⟩ := List.exists_cons_of_ne_nil hne
  have htext : digitText (d :: digits) = digitChar d :: digitText digits := rfl
  have hsign : ¬ some (digitChar d) = some '+' := fun hsame ↦
    hplus d (d.isLt.trans_le hradix) (Option.some.inj hsame)
  rw [parseUnsigned, htext, List.head?_cons, if_neg hsign, if_neg (List.cons_ne_nil _ _), ← htext,
    digitsValue_digits hradix]
  exact Option.filter_eq_some_iff.mpr ⟨rfl, decide_eq_true hlt⟩

theorem fromUtf8Lossy_cons_ascii {b : UInt8} (h : b < 0x80) :
    Text.fromUtf8Lossy (b :: rest) = Char.ofNat b.toNat :: Text.fromUtf8Lossy rest := by
  rw [Text.fromUtf8Lossy.eq_def]
  exact if_pos h

theorem fromUtf8Lossy_digits {radix : ℕ} (hradix : radix ≤ 10) (digits : List (Fin radix)) :
    Text.fromUtf8Lossy (digitBytes digits ++ rest) =
      digitText digits ++ Text.fromUtf8Lossy rest := by
  have hdigit : ∀ d < 10, digitByte d < 0x80 ∧ Char.ofNat (digitByte d).toNat = digitChar d := by
    decide
  induction digits with
  | nil => rfl
  | cons d digits ih =>
    obtain ⟨hascii, hchar⟩ := hdigit d (d.isLt.trans_le hradix)
    have hbytes : digitBytes (d :: digits) = digitByte d :: digitBytes digits := rfl
    rw [hbytes, List.cons_append, fromUtf8Lossy_cons_ascii hascii, hchar, ih]
    rfl

theorem span_field {field rest : Str} (h : ' ' ∉ field) :
    (field ++ ' ' :: rest).span (· ≠ ' ') = (field, ' ' :: rest) := by
  have hfield : ∀ c ∈ field, decide (c ≠ ' ') = true := fun c hc ↦
    decide_eq_true fun hsame ↦ h (hsame ▸ hc)
  rw [List.span_eq_takeWhile_dropWhile, List.takeWhile_append_of_pos hfield,
    List.dropWhile_append_of_pos hfield]
  simp

theorem space_not_mem_digits {radix : ℕ} (hradix : radix ≤ 10) (digits : List (Fin radix)) :
    ' ' ∉ digitText digits := by
  have hspace : ∀ d < 10, digitChar d ≠ ' ' := by decide
  intro hmem
  obtain ⟨d, -, hd⟩ := List.mem_map.mp hmem
  exact hspace d (d.isLt.trans_le hradix) hd

theorem filter_digitBytes {radix : ℕ} (hradix : radix ≤ 10) (digits : List (Fin radix)) :
    (digitBytes digits).filter (· ≠ 13) = digitBytes digits := by
  have hreturn : ∀ d < 10, digitByte d ≠ 13 := by decide
  refine List.filter_eq_self.mpr fun b hb ↦ decide_eq_true ?_
  obtain ⟨d, -, rfl⟩ := List.mem_map.mp hb
  exact hreturn d (d.isLt.trans_le hradix)

theorem filter_cons_keep {b : UInt8} (h : b ≠ 13) :
    (b :: rest).filter (· ≠ 13) = b :: rest.filter (· ≠ 13) :=
  List.filter_cons_of_pos (decide_eq_true h)

/-- The text of a `C` or `D` line. -/
theorem fromUtf8Lossy_line (header : Header) {kind : UInt8} (hkind : kind < 0x80)
    (hreturn : kind ≠ 13) :
    Text.fromUtf8Lossy ((header.line kind).filter (· ≠ 13)) =
      Char.ofNat kind.toNat :: digitText header.mode ++ ' ' :: (digitText header.size ++ ' ' ::
        Text.fromUtf8Lossy (header.name.filter (· ≠ 13))) := by
  have hline : (header.line kind).filter (· ≠ 13) =
      kind :: (digitBytes header.mode ++ 32 :: (digitBytes header.size ++ 32 ::
        header.name.filter (· ≠ 13))) := by
    rw [Header.line, filter_cons_keep hreturn, List.filter_append, filter_digitBytes (by decide),
      filter_cons_keep (by decide), List.filter_append, filter_digitBytes (by decide),
      filter_cons_keep (by decide)]
  rw [hline, fromUtf8Lossy_cons_ascii hkind, fromUtf8Lossy_digits (by decide),
    fromUtf8Lossy_cons_ascii (by decide), fromUtf8Lossy_digits (by decide),
    fromUtf8Lossy_cons_ascii (by decide)]
  rfl

/-- **The fields of a line** are read back. -/
theorem parseCd_line (h : header.WellFormed) {kind : Char} (hkind : kind.utf8Size = 1)
    (hspace : kind ≠ ' ') (text : Str) :
    parseCd (kind :: digitText header.mode ++ ' ' ::
        (digitText header.size ++ ' ' :: text)) =
      some (UInt32.ofNat (value 8 header.mode), value 10 header.size,
        sanitizeName (Text.trim text)) := by
  have hfield : ' ' ∉ kind :: digitText header.mode := by
    rw [List.mem_cons, not_or]
    exact ⟨hspace.symm, space_not_mem_digits (by decide) _⟩
  rw [parseCd, span_field hfield]
  dsimp only
  rw [span_field (space_not_mem_digits (by decide) _)]
  dsimp only
  rw [if_neg (not_not_intro hkind), parseUnsigned_digits (by decide) h.mode_ne_nil h.mode_lt,
    parseUnsigned_digits (by decide) h.size_ne_nil h.size_lt]
  rfl

/-- The text and the fields of a `C` or `D` line. -/
theorem read_line (h : header.WellFormed) (kind : UInt8) (hkind : kind < 0x80)
    (hreturn : kind ≠ 13) (hsize : (Char.ofNat kind.toNat).utf8Size = 1)
    (hspace : Char.ofNat kind.toNat ≠ ' ') :
    (Text.fromUtf8Lossy ((header.line kind).filter (· ≠ 13))).head? =
        some (Char.ofNat kind.toNat) ∧
      parseCd (Text.fromUtf8Lossy ((header.line kind).filter (· ≠ 13))) =
        some (UInt32.ofNat (value 8 header.mode), value 10 header.size, sanitized header.name) := by
  rw [fromUtf8Lossy_line header hkind hreturn]
  exact ⟨rfl, parseCd_line h hsize hspace _⟩

/-- **A control line** opens or closes a directory, or starts the file it announces. -/
theorem handleControl_line (sink : ScpSink) {m : Message} (h : m.FieldsWellFormed) :
    sink.handleControl (m.line.filter (· ≠ 13)) = sink.behind m := by
  cases m with
  | directory header =>
    obtain ⟨hkind, hparse⟩ := read_line h 68 (by decide) (by decide) (by decide)
      (by decide)
    have hroom : sink.behind (.directory header) = if sink.dirs.length < maxScpDepth then
        { sink with dirs := sink.dirs ++ [sanitized header.name] } else sink :=
      apply_ite (fun dirs ↦ ({ sink with dirs := dirs } : ScpSink)) ..
    rw [Message.line, ScpSink.handleControl, hkind, hparse, hroom]
    rfl
  | file header body trailing =>
    obtain ⟨hkind, hparse⟩ := read_line h.1 67 (by decide) (by decide) (by decide)
      (by decide)
    rw [Message.line, ScpSink.handleControl, hkind, hparse]
    rfl
  | endDirectory => rfl
  | times rest =>
    rw [ScpSink.handleControl, Message.line, filter_cons_keep (by decide),
      fromUtf8Lossy_cons_ascii (by decide)]
    rfl

end Lines

/-! ### The sink on a stream -/

section Streams

variable {sha256 : Bytes → Bytes} {sink : ScpSink} {acks : Bytes} {done : List CompletedFile}

theorem feedByte_line {b : UInt8} (hfile : sink.file = none) (hb : b ≠ 10)
    (hroom : sink.buf.length < maxControlLine) :
    feedByte sha256 b ⟨sink, acks, done⟩ =
      ⟨{ sink with buf := sink.buf ++ [b].filter (· ≠ 13) }, acks, done⟩ := by
  rw [feedByte, hfile]
  dsimp only
  rw [if_neg hb]
  by_cases hreturn : b = 13
  · subst hreturn
    rw [if_neg (not_not_intro rfl), List.filter_cons_of_neg (by decide), List.filter_nil,
      List.append_nil, ← hfile]
  · rw [if_pos hreturn, if_pos hroom, filter_cons_keep hreturn, List.filter_nil, ← hfile]

/-- A control line, up to its newline. -/
theorem run_line (sink : ScpSink) {line : Bytes} (hfile : sink.file = none) (hline : 10 ∉ line)
    (hroom : sink.buf.length + line.length ≤ maxControlLine) :
    run (feedByte sha256) ⟨sink, acks, done⟩ line =
      ⟨{ sink with buf := sink.buf ++ line.filter (· ≠ 13) }, acks, done⟩ := by
  induction line generalizing sink with
  | nil => rw [run_nil, List.filter_nil, List.append_nil]
  | cons b line ih =>
    rw [List.mem_cons, not_or] at hline
    rw [List.length_cons] at hroom
    have hlength : ([b].filter (· ≠ 13)).length ≤ 1 := List.length_filter_le _ [b]
    have hroom' : (sink.buf ++ [b].filter (· ≠ 13)).length + line.length ≤ maxControlLine := by
      rw [List.length_append]
      omega
    rw [run_cons, feedByte_line hfile (Ne.symm hline.1) (by omega),
      ih { sink with buf := sink.buf ++ [b].filter (· ≠ 13) } hfile hline.2 hroom',
      List.append_assoc, ← List.filter_append, List.singleton_append]

/-- What becomes of a file when the bytes of a body are received. -/
theorem foldl_receive {maxBytes : ℕ} (file : Incoming) (body : Bytes)
    (hdata : file.data.length ≤ maxBytes) :
    body.foldl (fun file b ↦ file.receive maxBytes b) file =
      { file with
        remaining := file.remaining - body.length
        data := file.data ++ body.take (maxBytes - file.data.length)
        hashed := file.hashed ++ body
        truncated := file.truncated || decide (file.data.length + body.length > maxBytes) } := by
  induction body generalizing file with
  | nil => simp [Nat.not_lt.mpr hdata]
  | cons b body ih =>
    have hremaining : file.remaining - 1 - body.length = file.remaining - (b :: body).length := by
      rw [List.length_cons]
      omega
    rw [List.foldl_cons, Incoming.receive]
    dsimp only
    split
    · rename_i hroom
      have hlength : (file.data ++ [b]).length = file.data.length + 1 := List.length_append
      have htake : maxBytes - file.data.length = maxBytes - (file.data.length + 1) + 1 := by omega
      refine (ih _ (hlength.trans_le hroom)).trans ?_
      rw [Incoming.mk.injEq]
      refine ⟨rfl, rfl, rfl, hremaining, ?_, List.append_assoc .., ?_⟩
      · rw [hlength, htake, List.take_succ_cons, List.append_assoc, List.singleton_append]
      · rw [hlength, List.length_cons, Nat.add_assoc, Nat.add_comm 1]
    · rename_i hroom
      have hfull : maxBytes - file.data.length = 0 := by omega
      refine (ih _ (by exact hdata)).trans ?_
      rw [Incoming.mk.injEq]
      refine ⟨rfl, rfl, rfl, hremaining, ?_, List.append_assoc .., ?_⟩
      · rw [hfull, List.take_zero, List.take_zero]
      · have hlong : file.data.length + (b :: body).length > maxBytes := by
          rw [List.length_cons]
          omega
        rw [decide_eq_true hlong, Bool.or_true, Bool.true_or]

theorem remaining_receive (file : Incoming) (maxBytes : ℕ) (b : UInt8) :
    (file.receive maxBytes b).remaining = file.remaining - 1 := by
  rw [Incoming.receive]
  dsimp only
  split <;> rfl

/-- A body, up to the byte behind it. -/
theorem run_body {file : Incoming} {body : Bytes} (hfile : sink.file = some file)
    (hlength : file.remaining = body.length) :
    run (feedByte sha256) ⟨sink, acks, done⟩ body =
      ⟨{ sink with file := some (body.foldl (fun file b ↦ file.receive sink.maxBytes b) file) },
        acks, done⟩ := by
  induction body generalizing sink file with
  | nil => rw [run_nil, List.foldl_nil, ← hfile]
  | cons b body ih =>
    rw [List.length_cons] at hlength
    rw [run_cons, feedByte, hfile]
    dsimp only
    rw [if_pos (by omega)]
    refine (ih rfl ?_).trans rfl
    rw [remaining_receive]
    omega

/-- The file that is announced, when its body is there. -/
theorem completed_announced {header : Header} {body : Bytes} {maxBytes : ℕ} (dirs : List Str)
    (hlength : body.length = value 10 header.size) :
    (body.foldl (fun file b ↦ file.receive maxBytes b) (announced header)).completed sha256 dirs =
      sentFile sha256 maxBytes dirs header body := by
  rw [foldl_receive _ _ (Nat.zero_le _)]
  simp [announced, Incoming.completed, sentFile, hlength]

/-- A control line and its newline. -/
theorem run_line_newline {m : Message} (h : m.WellFormed) (hfile : sink.file = none)
    (hbuf : sink.buf = []) :
    run (feedByte sha256) ⟨sink, acks, done⟩ (m.line ++ [10]) =
      ⟨sink.behind m, acks ++ [0], done⟩ := by
  have hroom : sink.buf.length + m.line.length ≤ maxControlLine := by
    rw [hbuf, List.length_nil, Nat.zero_add]
    exact h.length_le
  obtain ⟨target, recursive, maxBytes, dirs, buf, file⟩ := sink
  subst hfile hbuf
  rw [run_append, run_line _ rfl h.newline_not_mem hroom, ← handleControl_line _ h.fields]
  rfl

/-- A body and the byte behind it. -/
theorem run_payload {header : Header} {body : Bytes} (trailing : UInt8)
    (hlength : body.length = value 10 header.size) (hfile : sink.file = some (announced header)) :
    run (feedByte sha256) ⟨sink, acks, done⟩ (body ++ [trailing]) =
      ⟨{ sink with file := none }, acks ++ [0],
        done ++ [sentFile sha256 sink.maxBytes sink.dirs header body]⟩ := by
  have hend : (body.foldl (fun file b ↦ file.receive sink.maxBytes b)
      (announced header)).remaining = 0 := by
    rw [foldl_receive _ _ (Nat.zero_le _)]
    exact Nat.sub_eq_zero_of_le hlength.ge
  rw [run_append, run_body hfile hlength.symm, run_cons, run_nil, feedByte]
  dsimp only
  rw [if_neg (by omega), completed_announced _ hlength]

/-- **One message.** -/
theorem run_message {m : Message} (h : m.WellFormed) (hfile : sink.file = none)
    (hbuf : sink.buf = []) :
    run (feedByte sha256) ⟨sink, acks, done⟩ (m.line ++ 10 :: m.payload) =
      ⟨{ sink with dirs := kept sink.dirs m },
        acks ++ List.replicate (1 + (filesOf sha256 sink.maxBytes sink.dirs m).length) 0,
        done ++ filesOf sha256 sink.maxBytes sink.dirs m⟩ := by
  rw [← List.singleton_append, ← List.append_assoc, run_append, run_line_newline h hfile hbuf]
  cases m with
  | file header body trailing =>
    refine (run_payload trailing h.fields.2 rfl).trans ?_
    rw [List.append_assoc, ScpSink.behind, ← hfile]
    rfl
  | directory header => exact congrArg (Feed.mk _ _) (List.append_nil done).symm
  | endDirectory => exact congrArg (Feed.mk _ _) (List.append_nil done).symm
  | times rest => exact congrArg (Feed.mk _ _) (List.append_nil done).symm

/-- **The sink on a stream.** -/
theorem run_encode (sink : ScpSink) {ms : List Message} (h : ∀ m ∈ ms, m.WellFormed)
    (hfile : sink.file = none) (hbuf : sink.buf = []) :
    run (feedByte sha256) ⟨sink, acks, done⟩ (encode ms) =
      ⟨{ sink with dirs := ms.foldl kept sink.dirs },
        acks ++ List.replicate (ms.length + (received sha256 sink.maxBytes sink.dirs ms).length) 0,
        done ++ received sha256 sink.maxBytes sink.dirs ms⟩ := by
  induction ms generalizing sink acks done with
  | nil =>
    exact congrArg₂ (Feed.mk sink) (List.append_nil acks).symm (List.append_nil done).symm
  | cons m ms ih =>
    rw [List.forall_mem_cons] at h
    rw [encode, List.flatMap_cons, run_append, run_message h.1 hfile hbuf, ← encode]
    refine (ih { sink with dirs := kept sink.dirs m } h.2 hfile hbuf).trans ?_
    have hcount : 1 + (filesOf sha256 sink.maxBytes sink.dirs m).length + (ms.length +
        (received sha256 sink.maxBytes (kept sink.dirs m) ms).length) = (m :: ms).length +
        (received sha256 sink.maxBytes sink.dirs (m :: ms)).length := by
      rw [received, List.length_append, List.length_cons]
      omega
    rw [List.append_assoc, List.append_assoc, List.replicate_append_replicate, hcount]
    rfl

/-- Consume one chunk after the other, collecting what each call acknowledges and completes. -/
def feedChunks (sha256 : Bytes → Bytes) (sink : ScpSink) (chunks : List Bytes) : Feed :=
  chunks.foldl (fun x chunk ↦
    ⟨(feed sha256 x.sink chunk).sink, x.acks ++ (feed sha256 x.sink chunk).acks,
      x.done ++ (feed sha256 x.sink chunk).done⟩) ⟨sink, [], []⟩

theorem feedChunks_eq (sink : ScpSink) (chunks : List Bytes) :
    feedChunks sha256 sink chunks = feed sha256 sink chunks.flatten := by
  induction chunks using List.reverseRecOn with
  | nil => rfl
  | append_singleton chunks chunk ih =>
    rw [feedChunks, List.foldl_append, ← feedChunks, ih, List.flatten_append,
      List.flatten_singleton, feed_append]
    rfl

/-- **Any way of cutting** a stream. -/
theorem feedChunks_encode (target : Str) (recursive : Bool) (maxBytes : ℕ) {ms : List Message}
    (h : ∀ m ∈ ms, m.WellFormed) {chunks : List Bytes} (hchunks : chunks.flatten = encode ms) :
    (feedChunks sha256 (.new target recursive maxBytes) chunks).acks =
        List.replicate (ms.length + (received sha256 maxBytes [] ms).length) 0 ∧
      (feedChunks sha256 (.new target recursive maxBytes) chunks).done =
        received sha256 maxBytes [] ms := by
  rw [feedChunks_eq, hchunks, feed, run_encode (.new target recursive maxBytes) h rfl rfl]
  exact ⟨List.nil_append _, List.nil_append _⟩

end Streams

/-! ### Deep directories -/

/-- No file comes between the end of a directory that the sink had no room for and the end of the
outermost directory around it. The first arguments are the number of open directories, and whether
such a directory has been left. -/
def Undisturbed : ℕ → Bool → List Message → Prop
  | _, _, [] => True
  | depth, left, .directory _ :: ms => Undisturbed (depth + 1) left ms
  | depth, left, .file .. :: ms => left = false ∧ Undisturbed depth left ms
  | depth, left, .endDirectory :: ms =>
    Undisturbed (depth - 1) ((left || maxScpDepth < depth) && depth ≠ 1) ms
  | depth, left, .times _ :: ms => Undisturbed depth left ms

section Depth

variable {sha256 : Bytes → Bytes} {maxBytes : ℕ} {dirs dirs' : List Str}

theorem length_received (dirs dirs' : List Str) (ms : List Message) :
    (received sha256 maxBytes dirs ms).length = (sent sha256 maxBytes dirs' ms).length := by
  induction ms generalizing dirs dirs' with
  | nil => rfl
  | cons m ms ih =>
    rw [received, sent, List.length_append, List.length_append, ih (kept dirs m) (opened dirs' m)]
    cases m <;> rfl

/-- What the sink has of the open directories. -/
structure Follows (left : Bool) (dirs dirs' : List Str) : Prop where
  length_le : dirs'.length ≤ dirs.length
  eq_take : left = false → dirs' = dirs.take maxScpDepth

theorem kept_take (dirs : List Str) (header : Header) :
    kept (dirs.take maxScpDepth) (.directory header) =
      (opened dirs (.directory header)).take maxScpDepth := by
  rw [kept, opened, List.length_take]
  split
  · rename_i hroom
    have hshort : dirs.length < maxScpDepth := by omega
    rw [List.take_of_length_le hshort.le, List.take_of_length_le]
    rw [List.length_append, List.length_singleton]
    exact hshort
  · rename_i hfull
    rw [List.take_append_of_le_length (by omega)]

theorem dropLast_take_of_le (h : dirs.length ≤ maxScpDepth) :
    (dirs.take maxScpDepth).dropLast = dirs.dropLast.take maxScpDepth := by
  rw [List.take_of_length_le h, List.take_of_length_le]
  exact (List.length_dropLast ..).trans_le ((Nat.sub_le ..).trans h)

theorem Follows.directory {left : Bool} (h : Follows left dirs dirs') (header : Header) :
    Follows left (opened dirs (.directory header)) (kept dirs' (.directory header)) where
  length_le := by
    have hle := h.length_le
    rw [kept, opened, List.length_append, List.length_singleton]
    split
    · rw [List.length_append, List.length_singleton]
      omega
    · omega
  eq_take hleft := by rw [h.eq_take hleft, kept_take]

theorem Follows.endDirectory {left : Bool} (h : Follows left dirs dirs') :
    Follows ((left || maxScpDepth < dirs.length) && dirs.length ≠ 1) dirs.dropLast
      dirs'.dropLast where
  length_le := by
    rw [List.length_dropLast, List.length_dropLast]
    exact Nat.sub_le_sub_right h.length_le 1
  eq_take hleft := by
    rcases Bool.and_eq_false_iff.mp hleft with hleft | hone
    · obtain ⟨hleft, hshallow⟩ := Bool.or_eq_false_iff.mp hleft
      rw [h.eq_take hleft, dropLast_take_of_le (Nat.not_lt.mp (of_decide_eq_false hshallow))]
    · have hone : dirs.length = 1 := by simpa using hone
      have hnil : dirs.dropLast = [] := by
        rw [← List.length_eq_zero_iff, List.length_dropLast, hone]
      have hnil' : dirs'.dropLast = [] := by
        rw [← List.length_eq_zero_iff, List.length_dropLast]
        exact Nat.sub_eq_zero_of_le (h.length_le.trans_eq hone)
      rw [hnil, hnil', List.take_nil]

/-- **A stream that is left undisturbed** is taken in as it was sent. -/
theorem received_eq_sent {left : Bool} {ms : List Message} (h : Follows left dirs dirs')
    (hms : Undisturbed dirs.length left ms) :
    received sha256 maxBytes dirs' ms = sent sha256 maxBytes dirs ms := by
  induction ms generalizing left dirs dirs' with
  | nil => rfl
  | cons m ms ih =>
    rw [received, sent]
    cases m with
    | directory header =>
      refine congrArg _ (ih (h.directory header) ?_)
      rw [opened, List.length_append, List.length_singleton]
      exact hms
    | file header body trailing =>
      obtain ⟨hleft, hms⟩ := hms
      rw [h.eq_take hleft]
      exact congrArg _ (ih (h.eq_take hleft ▸ h) hms)
    | endDirectory =>
      refine congrArg _ (ih h.endDirectory ?_)
      rw [opened, List.length_dropLast]
      exact hms
    | times rest => exact congrArg _ (ih h hms)

/-! ### Streams of the same shape -/

/-- The directory of a message may have another name. -/
inductive Renamed : Message → Message → Prop
  | directory (header : Header) (name : Bytes) :
    Renamed (.directory header) (.directory { header with name := name })
  | same (m : Message) : Renamed m m

theorem undisturbed_congr {ms ms' : List Message} (h : List.Forall₂ Renamed ms ms') {depth : ℕ}
    {left : Bool} : Undisturbed depth left ms ↔ Undisturbed depth left ms' := by
  induction h generalizing depth left with
  | nil => exact Iff.rfl
  | @cons m _ _ _ hm _ ih =>
    cases hm with
    | directory header name => exact ih
    | same =>
      cases m with
      | file header body trailing => exact and_congr_right fun _ ↦ ih
      | directory header => exact ih
      | endDirectory => exact ih
      | times rest => exact ih

/-- A name for the directories at a level, which is another one at each of the first 32 levels. -/
def levelName (level : ℕ) : Bytes := [UInt8.ofNat (48 + min level maxScpDepth)]

def levelText (level : ℕ) : Str := [Char.ofNat (48 + min level maxScpDepth)]

theorem sanitized_levelName (level : ℕ) : sanitized (levelName level) = levelText level := by
  have hlevels : ∀ n < 33, sanitized [UInt8.ofNat (48 + n)] = [Char.ofNat (48 + n)] := by
    decide +kernel
  exact hlevels _ (Nat.lt_succ_of_le (Nat.min_le_right ..))

theorem slash_not_mem_levelText (level : ℕ) : '/' ∉ levelText level := by
  have hlevels : ∀ n < 33, '/' ∉ [Char.ofNat (48 + n)] := by decide
  exact hlevels _ (Nat.lt_succ_of_le (Nat.min_le_right ..))

theorem levelText_ne {level level' : ℕ} (hlevel : level < maxScpDepth) (h : level ≠ level') :
    levelText level ≠ levelText level' := by
  have hlevels : ∀ n < 32, ∀ n' < 33, n ≠ n' → Char.ofNat (48 + n) ≠ Char.ofNat (48 + n') := by
    decide
  intro hsame
  have hmin : min level maxScpDepth = level := Nat.min_eq_left hlevel.le
  refine hlevels level hlevel (min level' maxScpDepth)
    (Nat.lt_succ_of_le (Nat.min_le_right ..)) ?_ ?_
  · rw [maxScpDepth] at hlevel ⊢
    omega
  · rw [levelText, levelText, hmin] at hsame
    exact List.singleton_injective hsame

/-- The stream with the directories named by their levels. -/
def relabel : ℕ → List Message → List Message
  | _, [] => []
  | depth, .directory header :: ms =>
    .directory { header with name := levelName depth } :: relabel (depth + 1) ms
  | depth, .endDirectory :: ms => .endDirectory :: relabel (depth - 1) ms
  | depth, m :: ms => m :: relabel depth ms

theorem renamed_relabel (depth : ℕ) (ms : List Message) :
    List.Forall₂ Renamed ms (relabel depth ms) := by
  induction ms generalizing depth with
  | nil => exact .nil
  | cons m ms ih =>
    cases m with
    | directory header => exact .cons (.directory ..) (ih _)
    | endDirectory => exact .cons (.same _) (ih _)
    | file header body trailing => exact .cons (.same _) (ih _)
    | times rest => exact .cons (.same _) (ih _)

theorem wellFormed_levelName {header : Header} (h : (Message.directory header).WellFormed)
    (depth : ℕ) : (Message.directory { header with name := levelName depth }).WellFormed where
  fields := { (h.fields : header.WellFormed) with name_ne_nil := List.cons_ne_nil _ _ }
  newline_not_mem := by
    have hlevels : ∀ n < 33, (10 : UInt8) ≠ UInt8.ofNat (48 + n) := by decide
    have hname := hlevels _ (Nat.lt_succ_of_le (Nat.min_le_right depth maxScpDepth))
    have hline := h.newline_not_mem
    simp only [Message.line, Header.line, levelName, List.mem_cons, List.mem_append, not_or]
      at hline ⊢
    exact ⟨hline.1, hline.2.1, hline.2.2.1, hline.2.2.2.1, hline.2.2.2.2.1, hname, nofun⟩
  length_le := by
    have hname := List.length_pos_of_ne_nil (h.fields : header.WellFormed).name_ne_nil
    have hline := h.length_le
    simp only [Message.line, Header.line, levelName, List.length_cons, List.length_append,
      List.length_nil] at hline ⊢
    omega

theorem wellFormed_relabel {ms : List Message} (h : ∀ m ∈ ms, m.WellFormed) (depth : ℕ) :
    ∀ m ∈ relabel depth ms, m.WellFormed := by
  induction ms generalizing depth with
  | nil => exact nofun
  | cons m ms ih =>
    rw [List.forall_mem_cons] at h
    cases m with
    | directory header =>
      exact List.forall_mem_cons.mpr ⟨wellFormed_levelName h.1 depth, ih h.2 _⟩
    | endDirectory => exact List.forall_mem_cons.mpr ⟨h.1, ih h.2 _⟩
    | file header body trailing => exact List.forall_mem_cons.mpr ⟨h.1, ih h.2 _⟩
    | times rest => exact List.forall_mem_cons.mpr ⟨h.1, ih h.2 _⟩

/-- The open directories when they are named by their levels. -/
def levels (depth : ℕ) : List Str := (List.range depth).map levelText

/-- The sink has some of the open directories, and behind the end of one that it had no room for one
of the first 32 is missing. -/
structure Misses (left : Bool) (depth : ℕ) (dirs : List Str) : Prop where
  sublist : dirs.Sublist (levels depth)
  eq_take : left = false → dirs = (levels depth).take maxScpDepth
  missing : left = true → ∃ level < depth, level < maxScpDepth ∧ levelText level ∉ dirs

theorem levels_succ (depth : ℕ) : levels (depth + 1) = levels depth ++ [levelText depth] := by
  rw [levels, List.range_succ, List.map_append]
  rfl

theorem length_levels (depth : ℕ) : (levels depth).length = depth := by
  rw [levels, List.length_map, List.length_range]

theorem not_mem_levels {level depth : ℕ} (hlevel : level < maxScpDepth) (h : depth ≤ level) :
    levelText level ∉ levels depth := by
  intro hmem
  obtain ⟨level', hlevel', hsame⟩ := List.mem_map.mp hmem
  have hlt := List.mem_range.mp hlevel'
  exact levelText_ne hlevel (by omega) hsame.symm

theorem dropLast_levels (depth : ℕ) : (levels depth).dropLast = levels (depth - 1) := by
  cases depth with
  | zero => rfl
  | succ depth => rw [levels_succ, List.dropLast_concat, Nat.add_sub_cancel]

theorem sublist_dropLast {depth : ℕ} (h : dirs.Sublist (levels depth)) :
    dirs.dropLast.Sublist (levels (depth - 1)) := by
  have hreverse := h.reverse.tail.reverse
  rw [List.tail_reverse, List.tail_reverse, List.reverse_reverse, List.reverse_reverse,
    dropLast_levels] at hreverse
  exact hreverse

theorem not_mem_dropLast {level : ℕ} (hlevel : level < maxScpDepth)
    (h : dirs.Sublist (levels (level + 1))) : levelText level ∉ dirs.dropLast := fun hmem ↦
  not_mem_levels hlevel le_rfl ((sublist_dropLast h).subset hmem)

/-- The last of the open directories is the one that is missing. -/
theorem sublist_of_not_mem {depth : ℕ} (h : dirs.Sublist (levels (depth + 1)))
    (hmissing : levelText depth ∉ dirs) : dirs.Sublist (levels depth) := by
  rw [levels_succ] at h
  obtain ⟨dirs₁, dirs₂, rfl, hdirs₁, hdirs₂⟩ := List.sublist_append_iff.mp h
  rw [List.mem_append, not_or] at hmissing
  cases dirs₂ with
  | nil => rwa [List.append_nil]
  | cons name dirs₂ =>
    have hname := List.mem_singleton.mp (hdirs₂.subset List.mem_cons_self)
    exact absurd (hname ▸ List.mem_cons_self) hmissing.2

theorem take_levels {n depth : ℕ} (h : n ≤ depth) : (levels depth).take n = levels n := by
  rw [levels, ← List.map_take, List.take_range, Nat.min_eq_left h, levels]

namespace Misses

variable {left : Bool} {depth : ℕ}

theorem follows (h : Misses left depth dirs) : Follows left (levels depth) dirs :=
  ⟨h.sublist.length_le, h.eq_take⟩

/-- Where one of the first 32 names is missing, the sink does not have these names. -/
theorem left_of_eq (h : Misses left depth dirs) (heq : dirs = (levels depth).take maxScpDepth) :
    left = false := by
  by_contra hleft
  obtain ⟨level, hdepth, hlevel, hmissing⟩ := h.missing (by simpa using hleft)
  rw [heq, levels, ← List.map_take, List.take_range] at hmissing
  exact hmissing (List.mem_map_of_mem (List.mem_range.mpr (by omega)))

theorem directory (h : Misses left depth dirs) (header : Header)
    (hname : sanitized header.name = levelText depth) :
    Misses left (depth + 1) (kept dirs (.directory header)) where
  sublist := by
    rw [kept, hname, levels_succ]
    split
    · exact h.sublist.append (List.Sublist.refl _)
    · exact h.sublist.trans (List.sublist_append_left ..)
  eq_take hleft := by
    rw [h.eq_take hleft, kept_take, opened, hname, levels_succ]
  missing hleft := by
    obtain ⟨level, hdepth, hlevel, hmissing⟩ := h.missing hleft
    refine ⟨level, hdepth.trans (Nat.lt_succ_self _), hlevel, ?_⟩
    rw [kept, hname]
    split
    · rw [List.mem_append, not_or]
      refine ⟨hmissing, ?_⟩
      rw [List.mem_singleton]
      exact levelText_ne hlevel hdepth.ne
    · exact hmissing

theorem endDirectory (h : Misses left depth dirs) :
    Misses ((left || maxScpDepth < depth) && depth ≠ 1) (depth - 1) dirs.dropLast where
  sublist := sublist_dropLast h.sublist
  eq_take hleft := by
    have heq := h.follows.endDirectory.eq_take
    rw [length_levels, dropLast_levels] at heq
    exact heq hleft
  missing hleft := by
    obtain ⟨hleft, hone⟩ := (Bool.and_eq_true_iff).mp hleft
    have hone : depth ≠ 1 := of_decide_eq_true hone
    rcases Bool.eq_false_or_eq_true left with hbefore | hbefore
    · obtain ⟨level, hdepth, hlevel, hmissing⟩ := h.missing hbefore
      by_cases hlast : level + 1 < depth
      · exact ⟨level, by omega, hlevel, fun hmem ↦ hmissing (List.mem_of_mem_dropLast hmem)⟩
      · obtain ⟨above, rfl⟩ := Nat.exists_eq_add_of_le' (show 1 ≤ level by omega)
        obtain rfl : depth = above + 1 + 1 := by omega
        exact ⟨above, Nat.lt_succ_self _, by omega,
          not_mem_dropLast (by omega) (sublist_of_not_mem h.sublist hmissing)⟩
    · rw [hbefore, Bool.false_or] at hleft
      have hdeep : maxScpDepth < depth := of_decide_eq_true hleft
      have hdirs := h.eq_take hbefore
      rw [take_levels hdeep.le] at hdirs
      have hlevel : 31 < maxScpDepth := by decide
      exact ⟨31, by omega, hlevel, not_mem_dropLast hlevel (hdirs ▸ List.Sublist.refl _)⟩

end Misses

/-- Taking apart what was joined. -/
theorem joinSlash_inj {names names' : List Str} (h : ∀ name ∈ names, name ≠ [] ∧ '/' ∉ name)
    (h' : ∀ name ∈ names', name ≠ [] ∧ '/' ∉ name)
    (hsame : Vfs.joinSlash names = Vfs.joinSlash names') : names = names' := by
  have hsplit : ∀ names : List Str, (∀ name ∈ names, name ≠ [] ∧ '/' ∉ name) →
      names = (Vfs.splitSlash ('/' :: Vfs.joinSlash names)).filter (· ≠ []) := by
    intro names h
    rcases eq_or_ne names [] with rfl | hne
    · decide
    · rw [Vfs.splitSlash_slash_joinSlash hne fun name hname ↦ (h name hname).2,
        List.filter_cons_of_neg (by decide)]
      exact (List.filter_eq_self.mpr fun name hname ↦ decide_eq_true (h name hname).1).symm
  rw [hsplit names h, hsplit names' h', hsame]

theorem mem_levels {name : Str} {depth : ℕ} (h : name ∈ levels depth) :
    name ≠ [] ∧ '/' ∉ name := by
  obtain ⟨level, -, rfl⟩ := List.mem_map.mp h
  exact ⟨List.cons_ne_nil _ _, slash_not_mem_levelText level⟩

/-- **A stream that is taken in as it was sent**, with the directories named by their levels, was
left undisturbed. -/
theorem undisturbed_of_eq {left : Bool} {depth : ℕ} {ms : List Message} (h : Misses left depth dirs)
    (heq : received sha256 maxBytes dirs (relabel depth ms) =
      sent sha256 maxBytes (levels depth) (relabel depth ms)) :
    Undisturbed depth left ms := by
  induction ms generalizing left depth dirs with
  | nil => trivial
  | cons m ms ih =>
    cases m with
    | directory header =>
      have hname : sanitized (levelName depth) = levelText depth := sanitized_levelName depth
      refine ih (h.directory { header with name := levelName depth } hname) ?_
      rw [levels_succ, ← hname]
      exact heq
    | file header body trailing =>
      obtain ⟨hfile, hrest⟩ := List.cons.inj heq
      have hdirs := joinSlash_inj (fun name hname ↦ mem_levels (h.sublist.subset hname))
        (fun name hname ↦ mem_levels (List.mem_of_mem_take hname))
        (congrArg CompletedFile.relDir hfile)
      exact ⟨h.left_of_eq hdirs, ih h hrest⟩
    | endDirectory =>
      refine ih h.endDirectory ?_
      rw [← dropLast_levels]
      exact heq
    | times rest => exact ih h heq

/-- **What the sink makes of a stream**, in any chunks: it acknowledges each control line and each
file; and with any names for the directories the files come out as they were sent, exactly if the
stream is left undisturbed. The end of a directory that is not open is ignored. -/
theorem decodes_iff (sha256 : Bytes → Bytes) (target : Str) (recursive : Bool) (maxBytes : ℕ)
    {ms : List Message} (h : ∀ m ∈ ms, m.WellFormed) :
    (∀ chunks : List Bytes, chunks.flatten = encode ms →
      (feedChunks sha256 (.new target recursive maxBytes) chunks).acks =
        List.replicate (ms.length + (sent sha256 maxBytes [] ms).length) 0) ∧
      ((∀ ms', List.Forall₂ Renamed ms ms' → (∀ m ∈ ms', m.WellFormed) →
          ∀ chunks : List Bytes, chunks.flatten = encode ms' →
            (feedChunks sha256 (.new target recursive maxBytes) chunks).done =
              sent sha256 maxBytes [] ms') ↔
        Undisturbed 0 false ms) := by
  refine ⟨fun chunks hchunks ↦ ?_, fun hall ↦ ?_, fun hms ms' hsame h' chunks hchunks ↦ ?_⟩
  · rw [(feedChunks_encode target recursive maxBytes h hchunks).1, length_received [] []]
  · have h' := wellFormed_relabel h 0
    have hdone := hall _ (renamed_relabel 0 ms) h' [encode (relabel 0 ms)] List.flatten_singleton
    rw [(feedChunks_encode target recursive maxBytes h' List.flatten_singleton).2] at hdone
    exact undisturbed_of_eq ⟨List.Sublist.refl _, fun _ ↦ rfl, nofun⟩ hdone
  · rw [(feedChunks_encode target recursive maxBytes h' hchunks).2]
    exact received_eq_sent ⟨le_rfl, fun _ ↦ rfl⟩ ((undisturbed_congr hsame).mp hms)

/-- A directory, and a file of two bytes. -/
def aDirectory : Message := .directory ⟨[0, 7, 5, 5], [0], [0x64]⟩

def aFile : Message := .file ⟨[0, 6, 4, 4], [2], [0x66]⟩ hi 0

theorem wellFormed_aDirectory : aDirectory.WellFormed :=
  ⟨⟨by decide, by decide, by decide, by decide, by decide⟩, by decide, by decide⟩

theorem wellFormed_aFile : aFile.WellFormed :=
  ⟨⟨⟨by decide, by decide, by decide, by decide, by decide⟩, by decide⟩, by decide, by decide⟩

theorem wellFormed_endDirectory : Message.endDirectory.WellFormed :=
  ⟨trivial, by decide, by decide⟩

theorem decodes_iff_aFile :
    (∀ chunks : List Bytes, chunks.flatten = encode [aDirectory, aFile] →
      (feedChunks (fun _ ↦ hiDigest) (.new "/tmp".toList true 1024) chunks).acks =
        List.replicate (2 + (sent (fun _ ↦ hiDigest) 1024 [] [aDirectory, aFile]).length) 0) ∧
      ((∀ ms', List.Forall₂ Renamed [aDirectory, aFile] ms' → (∀ m ∈ ms', m.WellFormed) →
          ∀ chunks : List Bytes, chunks.flatten = encode ms' →
            (feedChunks (fun _ ↦ hiDigest) (.new "/tmp".toList true 1024) chunks).done =
              sent (fun _ ↦ hiDigest) 1024 [] ms') ↔
        Undisturbed 0 false [aDirectory, aFile]) :=
  decodes_iff (fun _ ↦ hiDigest) "/tmp".toList true 1024
    (List.forall_mem_cons.mpr ⟨wellFormed_aDirectory, List.forall_mem_cons.mpr
      ⟨wellFormed_aFile, nofun⟩⟩)

/-- 33 directories in one another, and a file behind the end of the innermost one. -/
def tooDeep : List Message := List.replicate 33 aDirectory ++ [.endDirectory, aFile]

/-- The file comes out below 31 directories. -/
theorem tooDeep_misplaced :
    (∀ m ∈ tooDeep, m.WellFormed) ∧
      (feedChunks (fun _ ↦ hiDigest) (.new "/tmp".toList true 1024) [encode tooDeep]).done ≠
        sent (fun _ ↦ hiDigest) 1024 [] tooDeep := by
  have h : ∀ m ∈ tooDeep, m.WellFormed := by
    intro m hm
    rcases List.mem_append.mp hm with hm | hm
    · rw [List.eq_of_mem_replicate hm]
      exact wellFormed_aDirectory
    · rcases List.mem_pair.mp hm with rfl | rfl
      · exact wellFormed_endDirectory
      · exact wellFormed_aFile
  have hdirs : (received (fun _ ↦ hiDigest) 1024 [] tooDeep).map CompletedFile.relDir ≠
      (sent (fun _ ↦ hiDigest) 1024 [] tooDeep).map CompletedFile.relDir := by
    decide +kernel
  refine ⟨h, fun hsame ↦ hdirs ?_⟩
  rw [(feedChunks_encode "/tmp".toList true 1024 h List.flatten_singleton).2] at hsame
  rw [hsame]

end Depth

end Scp

end Mimic
