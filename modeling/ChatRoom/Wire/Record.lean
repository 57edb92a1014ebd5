import ChatRoom.Text.Clamp
import ChatRoom.Wire.Kind
import ChatRoom.Wire.Version

/-!
# Records

What the two sides of a connection say to each other. Names and messages are cut to their limits
where they are made (`Identity.of`, `Record.chat`, `Record.leaving`), so that both sides hold the
text that will be read back. A `stdout` text is cut only when it is written.
-/

namespace ChatRoom

/-- What a client presents itself with, and what every member is known by. -/
structure Identity where
  name : String
  version : Version
  deriving DecidableEq, Repr

/-- An identity whose name is within its limit. -/
def Identity.of (name : String) (version : Version) : Identity :=
  ⟨Text.clamp nameLimit name, version⟩

inductive Record where
  /-- Text for the receiver to show as it is. -/
  | stdout (text : String)
  /-- A client's request to be admitted. -/
  | userInfo (user : Identity)
  /-- The server's answer to an admitted client, or news of another member. -/
  | connect (user : Identity) (validateOnly : Bool)
  /-- A member has left, or is asked to leave. -/
  | disconnect (name : String)
  | message (text : String)
  deriving DecidableEq, Repr

namespace Record

def kind : Record → Kind
  | stdout _ => .stdout
  | userInfo _ => .userInfo
  | connect .. => .connect
  | disconnect _ => .disconnect
  | message _ => .message

/-- A chat message within its limit. -/
def chat (text : String) : Record :=
  .message (Text.clamp messageLimit text)

/-- News that the member with this name leaves. -/
def leaving (name : String) : Record :=
  .disconnect (Text.clamp nameLimit name)

end Record

end ChatRoom
