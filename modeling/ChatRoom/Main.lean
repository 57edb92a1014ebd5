import ChatRoom.Config.Flags
import ChatRoom.Session.Hub

/-!
# The command line

Serves one client over the standard streams, as a program does that is started for each connection
to the address of its configuration. What the client sends is read from standard input, what it is
sent goes to standard output, and the console and the log go to standard error.
-/

namespace ChatRoom

/-- What happens when bytes of the only peer have come, or none any more. -/
def arrival (chunk : Bytes) : Hub.Event :=
  if chunk = [] then .finish 0 else .send 0 chunk

/-- The bytes that the only peer has been sent. -/
def sentBytes (hub : Hub) : Bytes :=
  (hub.peers[0]?.map (·.target.taken)).getD []

/-- Whether the only peer is gone. -/
def isOver (hub : Hub) : Bool :=
  (hub.peers[0]?.bind (·.ending)).isSome

/-- The lines for standard error since an earlier state. -/
def newLines (before after : Hub) : List String :=
  after.server.console.drop before.server.console.length
    ++ (after.server.log.drop before.server.log.length).map fun entry =>
      entry.level.name ++ ": " ++ entry.text ++ "\n"

partial def serveStreams (input output errors : IO.FS.Stream) (hub : Hub) : IO Unit := do
  let chunk ← input.read 512
  let (_, after) := hub.step (arrival chunk.toList)
  output.write ⟨((sentBytes after).drop (sentBytes hub).length).toArray⟩
  output.flush
  for line in newLines hub after do
    errors.putStr line
  unless isOver after do
    serveStreams input output errors after

/-- The first line for standard error. -/
def greeting (config : ServerConfig) : String :=
  "Serving " ++ config.address.text ++ " for clients at version " ++ config.version.text ++ "\n"

def usage : String := "usage: chatroom [--config TEXT] [--bind ADDRESS] [--port PORT]\n"

end ChatRoom

def main (args : List String) : IO UInt32 := do
  let errors ← IO.getStderr
  match ChatRoom.ServerFlags.ofArgs? {} args with
  | none =>
    errors.putStr ChatRoom.usage
    return 2
  | some flags =>
    match flags.toConfig with
    | .error e =>
      errors.putStr ("error: " ++ e.message ++ "\n")
      return 1
    | .ok config =>
      errors.putStr (ChatRoom.greeting config)
      let hub : ChatRoom.Hub := { server := { version := config.version } }
      let (_, hub) := hub.connect none (ChatRoom.peerLabel none)
      ChatRoom.serveStreams (← IO.getStdin) (← IO.getStdout) errors hub
      return 0
