import ChatRoom.Config.Basic
import ChatRoom.Session.Error

/-!
# Loading configurations

A configuration is loaded from the contents of a file. The file may be missing, its bytes may not be
a text, and the text may be no configuration.
-/

namespace ChatRoom

/-- Reads the contents of a file, `none` being a file that does not exist. -/
def loadText {α : Type} (read : String → Option α) (contents : Option Bytes) :
    Except ChatError α :=
  match contents with
  | none => .error (.io .notFound)
  | some bs =>
    match Text.ofBytes? bs with
    | none => .error (.io .invalidData)
    | some text =>
      match read text with
      | none => .error .invalidConfig
      | some config => .ok config

def ServerConfig.load (contents : Option Bytes) : Except ChatError ServerConfig :=
  loadText ServerConfig.ofText? contents

def ClientConfig.load (contents : Option Bytes) : Except ChatError ClientConfig :=
  loadText ClientConfig.ofText? contents

end ChatRoom
