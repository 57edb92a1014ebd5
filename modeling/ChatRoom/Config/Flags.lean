import ChatRoom.Config.Load

/-!
# Flags

What a server is told on its command line: a configuration, and settings that stand before those of
the configuration. A flag is followed by its value, and may be given once.
-/

namespace ChatRoom

structure ServerFlags where
  /-- The text of a configuration. -/
  config : Option String := none
  bind : Option IpAddress := none
  port : Option UInt16 := none
  deriving DecidableEq, Repr

namespace ServerFlags

/-- A port in decimal. -/
def port? (text : String) : Option UInt16 :=
  (Text.number? 10 text.toList).bind fun n =>
    if n < UInt16.size then some (UInt16.ofNat n) else none

/-- Adds one flag to those that have been read. -/
def add? (flags : ServerFlags) (flag value : String) : Option ServerFlags :=
  match flag with
  | "-c" | "--config" =>
    if flags.config.isSome then none else some { flags with config := some value }
  | "-b" | "--bind" =>
    if flags.bind.isSome then none
    else (IpAddress.ofText? value).map fun ip => { flags with bind := some ip }
  | "-p" | "--port" =>
    if flags.port.isSome then none
    else (port? value).map fun port => { flags with port := some port }
  | _ => none

/-- Reads flags in any order, behind those that have been read. -/
def ofArgs? (flags : ServerFlags) : List String → Option ServerFlags
  | [] => some flags
  | [_] => none
  | flag :: value :: rest => (flags.add? flag value).bind (ofArgs? · rest)

/-- The configuration that the flags make up. -/
def toConfig (flags : ServerFlags) : Except ChatError ServerConfig := do
  let config ← match flags.config with
    | none => .ok {}
    | some text => ServerConfig.load (some (Text.bytes text))
  return { config with
    bind := flags.bind.getD config.bind
    port := flags.port.getD config.port }

end ServerFlags

end ChatRoom
