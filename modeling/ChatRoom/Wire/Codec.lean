import ChatRoom.Wire.Header
import ChatRoom.Wire.Record

/-!
# Records as bytes

After the header each kind has a flat layout:

* `stdout`: the text, as long as the declared size says;
* `userInfo`: a name in 33 bytes, then the three version numbers in two bytes each;
* `connect`: the same 39 bytes, then one byte for the flag;
* `disconnect`: a name in 33 bytes;
* `message`: a text in 257 bytes.

A text in a fixed width is followed by NULs, always by one at least. Reading stops at the first NUL
and never looks at the last byte of the field, so a field without a NUL does no harm. Bytes between
the end of a fixed layout and the declared size are ignored, and so are bytes after it.
-/

namespace ChatRoom

namespace Field

/-- A text in a field of `width` bytes, NULs behind it. -/
def write (width : Nat) (text : String) : Bytes :=
  let bs := Text.bytes (Text.clamp (width - 1) text)
  bs ++ List.replicate (width - bs.length) 0

/-- The text at the front of a field: at most `limit` bytes, and none from the first NUL on. -/
def read (limit : Nat) (field : Bytes) : String :=
  Text.ofBytes ((field.take limit).takeWhile (· != 0))

theorem length_write (width : Nat) (text : String) (h : 0 < width) :
    (write width text).length = width := by
  have := Text.length_bytes_clamp_le (width - 1) text
  simp only [write, List.length_append, List.length_replicate]
  omega

end Field

namespace Version

def bytes (v : Version) : Bytes :=
  LittleEndian.encode 2 v.major.toNat ++ LittleEndian.encode 2 v.minor.toNat
    ++ LittleEndian.encode 2 v.patch.toNat

def ofBytes (bs : Bytes) : Version where
  major := UInt16.ofNat (LittleEndian.decode (bs.take 2))
  minor := UInt16.ofNat (LittleEndian.decode ((bs.drop 2).take 2))
  patch := UInt16.ofNat (LittleEndian.decode ((bs.drop 4).take 2))

@[simp] theorem length_bytes (v : Version) : v.bytes.length = 6 := by
  simp [bytes]

end Version

namespace Identity

def bytes (user : Identity) : Bytes :=
  Field.write nameWidth user.name ++ user.version.bytes

def ofBytes (bs : Bytes) : Identity where
  name := Field.read nameLimit (bs.take nameWidth)
  version := Version.ofBytes (bs.drop nameWidth)

@[simp] theorem length_bytes (user : Identity) : user.bytes.length = identityWidth := by
  have := Field.length_write nameWidth user.name (by decide)
  simp only [bytes, List.length_append, Version.length_bytes, this, identityWidth]

end Identity

namespace Record

/-- The layout behind the header. -/
def body : Record → Bytes
  | stdout text => (Text.bytes (Text.clamp stdoutLimit text)).filter (· != 0)
  | userInfo user => user.bytes
  | connect user validateOnly => user.bytes ++ [if validateOnly then 1 else 0]
  | disconnect name => Field.write nameWidth name
  | message text => Field.write messageWidth text

/-- The header in front of a record's body: it always declares the true length. -/
def header (r : Record) : Header :=
  ⟨r.kind.tag, UInt64.ofNat (headerSize + r.body.length)⟩

def encode (r : Record) : Bytes :=
  r.header.bytes ++ r.body

/-- Reads a body. Nothing goes wrong if it has the bytes that its kind needs. -/
def ofBody (kind : Kind) (body : Bytes) : Record :=
  match kind with
  | .stdout => stdout (Field.read stdoutLimit body)
  | .userInfo => userInfo (Identity.ofBytes body)
  | .connect => connect (Identity.ofBytes body) (body[identityWidth]?.getD 0 != 0)
  | .disconnect => disconnect (Field.read nameLimit (body.take nameWidth))
  | .message => message (Field.read messageLimit (body.take messageWidth))

/-- Reads the record at the front of `frame`. -/
def decode (frame : Bytes) : Except FrameError Record :=
  match Header.ofBytes? frame with
  | none => .error (.truncated headerSize frame.length)
  | some header =>
    match header.validate with
    | .error e => .error e
    | .ok (kind, size) =>
      if frame.length < size then .error (.truncated size frame.length)
      else .ok (ofBody kind ((frame.take size).drop headerSize))

@[simp] theorem length_encode (r : Record) : r.encode.length = headerSize + r.body.length := by
  simp [encode]

theorem bodySize_le_length_body (r : Record) : r.kind.bodySize ≤ r.body.length := by
  cases r with
  | stdout text => exact Nat.zero_le _
  | userInfo user => simp [body, kind, Kind.bodySize]
  | connect user validateOnly => simp [body, kind, Kind.bodySize]
  | disconnect name =>
    simp [body, kind, Kind.bodySize, Field.length_write nameWidth name (by decide)]
  | message text =>
    simp [body, kind, Kind.bodySize, Field.length_write messageWidth text (by decide)]

end Record

end ChatRoom
