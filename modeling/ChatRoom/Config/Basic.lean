import ChatRoom.Config.Fields
import ChatRoom.Json.Parser
import ChatRoom.Json.Printer
import ChatRoom.Net.Address
import ChatRoom.Text.Utf8
import ChatRoom.Wire.Version

/-!
# Configurations

What the server and the client are told when they start. Both are JSON texts; every field that is
missing has a default, but a field that is there must be right. A version inside a configuration is
given whole: none of its three parts has a default.
-/

namespace ChatRoom

def defaultPort : UInt16 := 2052

namespace Version

def toJson (v : Version) : Json :=
  .object [
    (.ofText "major", .number (Nat.toDigits 10 v.major.toNat)),
    (.ofText "minor", .number (Nat.toDigits 10 v.minor.toNat)),
    (.ofText "patch", .number (Nat.toDigits 10 v.patch.toNat))]

def ofJson? (value : Json) : Option Version :=
  match value.fields? ["major", "minor", "patch"] with
  | some [some major, some minor, some patch] => do
    return ⟨← major.word16?, ← minor.word16?, ← patch.word16?⟩
  | _ => none

end Version

def IpAddress.ofJson? (value : Json) : Option IpAddress := value.text?.bind ofText?

/-- Where a server listens, and the version that its clients must have. -/
structure ServerConfig where
  bind : IpAddress := .v4 .unspecified
  port : UInt16 := defaultPort
  version : Version := .current
  deriving DecidableEq, Repr

namespace ServerConfig

def address (c : ServerConfig) : SocketAddress := ⟨c.bind, c.port, 0⟩

def toJson (c : ServerConfig) : Json :=
  .object [
    (.ofText "bind", .string (.ofText c.bind.text)),
    (.ofText "port", .number (Nat.toDigits 10 c.port.toNat)),
    (.ofText "version", c.version.toJson)]

def ofJson? (value : Json) : Option ServerConfig :=
  match value.fields? ["bind", "port", "version"] with
  | some [bind, port, version] => do
    let missing : ServerConfig := {}
    return {
      bind := ← Json.orElse IpAddress.ofJson? missing.bind bind
      port := ← Json.orElse Json.word16? missing.port port
      version := ← Json.orElse Version.ofJson? missing.version version }
  | _ => none

def text (c : ServerConfig) : String := c.toJson.text

def ofText? (text : String) : Option ServerConfig :=
  (Json.ofText? text).bind ofJson?

end ServerConfig

/-- Where a client finds its server. -/
structure ClientConfig where
  host : String := "localhost"
  port : UInt16 := defaultPort
  deriving DecidableEq, Repr

namespace ClientConfig

def toJson (c : ClientConfig) : Json :=
  .object [
    (.ofText "host", .string (.ofText c.host)),
    (.ofText "port", .number (Nat.toDigits 10 c.port.toNat))]

def ofJson? (value : Json) : Option ClientConfig :=
  match value.fields? ["host", "port"] with
  | some [host, port] => do
    let missing : ClientConfig := {}
    return {
      host := ← Json.orElse Json.text? missing.host host
      port := ← Json.orElse Json.word16? missing.port port }
  | _ => none

def text (c : ClientConfig) : String := c.toJson.text

def ofText? (text : String) : Option ClientConfig :=
  (Json.ofText? text).bind ofJson?

end ClientConfig

end ChatRoom
