/-!
# Record kinds

Five kinds of record cross a connection. Each has a tag and a least size, which counts the
12 bytes of the header. The fixed layouts need their whole body; a `stdout` record may be empty.
-/

namespace ChatRoom

/-- Bytes of the common header. -/
def headerSize : Nat := 12

/-- Longest name, in bytes. -/
def nameLimit : Nat := 32

/-- Longest chat message, in bytes. -/
def messageLimit : Nat := 256

/-- No record may declare more bytes than this. -/
def recordLimit : Nat := 4096

/-- Longest text of a `stdout` record, in bytes. -/
def stdoutLimit : Nat := recordLimit - headerSize

/-- Width of a name on the wire: there is always room for one closing NUL. -/
def nameWidth : Nat := nameLimit + 1

/-- Width of a message on the wire. -/
def messageWidth : Nat := messageLimit + 1

/-- Width of a name and a version on the wire. -/
def identityWidth : Nat := nameWidth + 6

inductive Kind where
  | stdout
  | userInfo
  | connect
  | disconnect
  | message
  deriving DecidableEq, Repr

namespace Kind

def tag : Kind → UInt32
  | stdout => 1
  | userInfo => 2
  | connect => 3
  | disconnect => 4
  | message => 5

def ofTag? (tag : UInt32) : Option Kind :=
  [stdout, userInfo, connect, disconnect, message].find? (·.tag == tag)

/-- The name that logs and errors use. -/
def name : Kind → String
  | stdout => "Stdout"
  | userInfo => "UserInfo"
  | connect => "Connect"
  | disconnect => "Disconnect"
  | message => "Message"

/-- Bytes that the fixed part of the body takes. -/
def bodySize : Kind → Nat
  | stdout => 0
  | userInfo => identityWidth
  | connect => identityWidth + 1
  | disconnect => nameWidth
  | message => messageWidth

/-- Least size a record of this kind may declare. -/
def minSize (kind : Kind) : Nat := headerSize + kind.bodySize

@[simp] theorem ofTag?_tag (kind : Kind) : ofTag? kind.tag = some kind := by
  cases kind <;> rfl

theorem tag_of_ofTag? {t : UInt32} {kind : Kind} (h : ofTag? t = some kind) : kind.tag = t := by
  simpa using List.find?_some h

theorem headerSize_le_minSize (kind : Kind) : headerSize ≤ kind.minSize :=
  Nat.le_add_right ..

end Kind

end ChatRoom
