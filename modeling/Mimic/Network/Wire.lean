import Mimic.Foundation.BigEndian
import Mimic.Vfs.Nodes

/-!
# Wire format of SFTP packets

The framing, encoding and decoding helpers at the end of `network/sftp.rs`.

A **frame** is a four-byte length, a type byte and a payload. `send_packet` appends one to a buffer:
it reserves the length, lets a closure append the payload, and writes the length over what it
reserved. `sendPacket_eq` says that with a closure that only appends, exactly one frame is appended
to the buffer, whose length field is the length of what follows it modulo `2 ^ 32`.

A decoder takes the unread part of a packet and returns what it read together with what is left.
-/

namespace Mimic

open BigEndian

namespace Wire

/-! ### Framing -/

/-- Append a frame: reserve the length, let the closure append the payload, then write the length
over what was reserved. -/
def sendPacket (out : Bytes) (pktType : UInt8) (payloadFn : Bytes → Bytes) : Bytes :=
  let start := out.length
  let filled := payloadFn (out ++ [0, 0, 0, 0, pktType])
  let totalLen := filled.length - start
  let pktLen := UInt32.ofNat (totalLen - 4)
  filled.take start ++ encode 4 pktLen.toNat ++ filled.drop (start + 4)

def putU32 (out : Bytes) (val : UInt32) : Bytes := out ++ encode 4 val.toNat

def putU64 (out : Bytes) (val : UInt64) : Bytes := out ++ encode 8 val.toNat

def putBytes (out data : Bytes) : Bytes := putU32 out (UInt32.ofNat data.length) ++ data

def putStr (out : Bytes) (s : Str) : Bytes := putBytes out (Text.toUtf8 s)

/-- Size, owner, permissions and times. -/
def putAttrs (out : Bytes) (metadata : Metadata) (size : ℕ) : Bytes :=
  let out := putU32 out (0x01 ||| 0x02 ||| 0x04 ||| 0x08)
  let out := putU64 out (UInt64.ofNat size)
  let out := putU32 out metadata.uid
  let out := putU32 out metadata.gid
  let out := putU32 out metadata.mode
  let out := putU32 out (UInt32.ofInt metadata.mtime)
  putU32 out (UInt32.ofInt metadata.mtime)

/-- An entry of a `NAME` packet. -/
structure NameEntry where
  name : Str
  longname : Str
  attrs : Option (Metadata × ℕ)

def putNameEntry (out : Bytes) (e : NameEntry) : Bytes :=
  let out := putStr out e.name
  let out := putStr out e.longname
  match e.attrs with
  | some (metadata, size) => putAttrs out metadata size
  | none => putU32 out 0

/-! ### Decoding -/

def getU32 (cursor : Bytes) : Option (UInt32 × Bytes) :=
  if cursor.length < 4 then none
  else some (UInt32.ofNat (decode (cursor.take 4)), cursor.drop 4)

def getU64 (cursor : Bytes) : Option (UInt64 × Bytes) :=
  if cursor.length < 8 then none
  else some (UInt64.ofNat (decode (cursor.take 8)), cursor.drop 8)

def getBytes (cursor : Bytes) : Option (Bytes × Bytes) :=
  match getU32 cursor with
  | none => none
  | some (len, cursor) =>
    if cursor.length < len.toNat then none
    else some (cursor.take len.toNat, cursor.drop len.toNat)

def getStr (cursor : Bytes) : Option (Str × Bytes) :=
  match getBytes cursor with
  | none => none
  | some (bytes, cursor) => (Text.fromUtf8 bytes).map fun text ↦ (text, cursor)

/-- The attributes of a request that the server acts on. -/
structure ParsedAttrs where
  permissions : Option UInt32
  uidGid : Option (UInt32 × UInt32)
  acmodtime : Option (UInt32 × UInt32)

/-- Two numbers in a row. -/
def getU32Pair (cursor : Bytes) : Option ((UInt32 × UInt32) × Bytes) :=
  (getU32 cursor).bind fun a ↦ (getU32 a.2).map fun b ↦ ((a.1, b.1), b.2)

/-- A field that is present when its flag is set. -/
def getOptional {α : Type} (present : Bool) (get : Bytes → Option (α × Bytes)) (cursor : Bytes) :
    Option (Option α × Bytes) :=
  if present then (get cursor).map fun r ↦ (some r.1, r.2) else some (none, cursor)

/-- Skip `count` extended attributes, each a pair of byte strings. -/
def skipExtended : ℕ → Bytes → Option Bytes
  | 0, cursor => some cursor
  | count + 1, cursor =>
    (getBytes cursor).bind fun a ↦ (getBytes a.2).bind fun b ↦ skipExtended count b.2

/-- The attributes of a request; `none` when they are cut short. -/
def getAttrs (cursor : Bytes) : Option ParsedAttrs :=
  (getU32 cursor).bind fun flags ↦
  (getOptional (flags.1 &&& 0x00000001 != 0) getU64 flags.2).bind fun size ↦
  (getOptional (flags.1 &&& 0x00000002 != 0) getU32Pair size.2).bind fun uidGid ↦
  (getOptional (flags.1 &&& 0x00000004 != 0) getU32 uidGid.2).bind fun permissions ↦
  (getOptional (flags.1 &&& 0x00000008 != 0) getU32Pair permissions.2).bind fun acmodtime ↦
  let attrs : ParsedAttrs := ⟨permissions.1, uidGid.1, acmodtime.1⟩
  if flags.1 &&& 0x80000000 != 0 then
    (getU32 acmodtime.2).bind fun count ↦
    (skipExtended count.1.toNat count.2).map fun _ ↦ attrs
  else some attrs

/-! ### What is appended -/

/-- One frame with the given type and payload, its length field as the source writes it. -/
def frame (pktType : UInt8) (payload : Bytes) : Bytes :=
  encode 4 (payload.length + 1) ++ pktType :: payload

/-- `f` only appends, and appends the same to every buffer. -/
def Appends (f : Bytes → Bytes) (payload : Bytes) : Prop := ∀ out, f out = out ++ payload

variable {f g : Bytes → Bytes} {payload payload' out : Bytes}

theorem Appends.comp (hf : Appends f payload) (hg : Appends g payload') :
    Appends (fun out ↦ g (f out)) (payload ++ payload') := by
  intro out
  show g (f out) = _
  rw [hg, hf, List.append_assoc]

theorem appends_putU32 (val : UInt32) : Appends (putU32 · val) (encode 4 val.toNat) := fun _ ↦ rfl

theorem appends_putU64 (val : UInt64) : Appends (putU64 · val) (encode 8 val.toNat) := fun _ ↦ rfl

theorem appends_putBytes (data : Bytes) :
    Appends (putBytes · data) (encode 4 (UInt32.ofNat data.length).toNat ++ data) := by
  intro out
  show putU32 out _ ++ data = _
  rw [putU32, List.append_assoc]

theorem appends_putAttrs (metadata : Metadata) (size : ℕ) :
    ∃ payload, Appends (putAttrs · metadata size) payload :=
  ⟨_, (appends_putU32 _).comp ((appends_putU64 _).comp ((appends_putU32 _).comp
    ((appends_putU32 _).comp ((appends_putU32 _).comp ((appends_putU32 _).comp
      (appends_putU32 _))))))⟩

theorem appends_putNameEntry (e : NameEntry) : ∃ payload, Appends (putNameEntry · e) payload := by
  rcases e with ⟨name, longname, - | ⟨metadata, size⟩⟩
  · exact ⟨_, (appends_putBytes _).comp ((appends_putBytes _).comp (appends_putU32 0))⟩
  · obtain ⟨payload, h⟩ := appends_putAttrs metadata size
    exact ⟨_, (appends_putBytes _).comp ((appends_putBytes _).comp h)⟩

theorem appends_foldl_putNameEntry (entries : List NameEntry) :
    ∃ payload, Appends (entries.foldl putNameEntry ·) payload := by
  induction entries with
  | nil => exact ⟨[], fun out ↦ (List.append_nil out).symm⟩
  | cons e entries ih =>
    obtain ⟨first, hfirst⟩ := appends_putNameEntry e
    obtain ⟨rest, hrest⟩ := ih
    exact ⟨_, hfirst.comp hrest⟩

/-- **`send_packet` appends exactly one frame.** -/
theorem sendPacket_eq {pktType : UInt8} (h : Appends f payload) :
    sendPacket out pktType f = out ++ frame pktType payload := by
  have hfilled : f (out ++ [0, 0, 0, 0, pktType]) =
      out ++ ([0, 0, 0, 0] ++ pktType :: payload) := by
    rw [h, List.append_assoc]
    rfl
  have hlen : (out ++ ([0, 0, 0, 0] ++ pktType :: payload)).length - out.length - 4 =
      payload.length + 1 := by
    simp only [List.length_append, List.length_cons, List.length_nil]
    omega
  have hfield : encode 4 (UInt32.ofNat (payload.length + 1)).toNat =
      encode 4 (payload.length + 1) := by
    rw [UInt32.toNat_ofNat', show (2 : ℕ) ^ 32 = 256 ^ 4 by norm_num, encode_mod]
  rw [sendPacket, hfilled, hlen, hfield, List.take_left, ← List.drop_drop, List.drop_left, frame,
    List.append_assoc]
  rfl

@[simp] theorem length_frame (pktType : UInt8) (payload : Bytes) :
    (frame pktType payload).length = payload.length + 5 := by
  rw [frame, List.length_append, length_encode, List.length_cons]
  omega

end Wire

end Mimic
