import ChatRoom.Session.Handler
import ChatRoom.Session.Room

/-!
# The client

The client keeps a roster of its own: its connection to the server first, then every member that the
server has told it of, by name only. It believes what the server says; the only names it passes over
are those it knows already.
-/

namespace ChatRoom

/-- How far the handshake has come. -/
inductive Status where
  | pending
  | ready
  | closed
  deriving DecidableEq, Repr

def Status.name : Status → String
  | pending => "Pending"
  | ready => "Ready"
  | closed => "Closed"

structure Client extends Room where
  /-- The connection to the server. -/
  home : Handle
  status : Status := .pending
  deriving DecidableEq, Repr

namespace Client

/-- A client whose connection has just been made. -/
def start (address : Option SocketAddress) : Client :=
  let (home, room) := ({} : Room).join address
  { room with home }

/-- The outbox of the connection to the server. -/
def outbox (s : Client) : Outbox := s.mail.box 0

def onStdout (_ : Handle) (text : String) (s : Client) : Answer Client :=
  (.ok .proceed, { s with toRoom := s.toRoom.write text })

/-- The server has admitted this client, or tells it of another member. -/
def onConnect (origin : Handle) (user : Identity) (validateOnly : Bool) (s : Client) :
    Answer Client :=
  if validateOnly then
    let room := s.toRoom.update origin fun c => (c.present user).validate
    (.ok .proceed, { s with toRoom := room, status := .ready })
  else
    match s.roster.findMember user.name (some origin) with
    | some _ => (.ok .proceed, s)
    | none =>
      let room := s.toRoom.note (.learned user.name)
      let room := { room with roster := (room.roster.link (.named user)).2 }
      (.ok .proceed, { s with toRoom := room })

/-- A member has left. If the name is that of the client's own connection, known under another
handle than the record came from, then that connection is let go. -/
def onDisconnect (origin : Handle) (name : String) (s : Client) : Answer Client :=
  match (s.roster.findMember name (some origin)).bind s.roster.unlink with
  | none => (.ok .proceed, s)
  | some (c, roster) =>
    let room := { s.toRoom with roster, mail := c.abandon s.mail }
    (.ok .proceed,
      { s with toRoom := room.write ("Client " ++ LogEntry.quoted name ++ " has disconnected\n") })

def onClosed (_ : Handle) (s : Client) : Client :=
  { s with toRoom := s.toRoom.disconnectAll.2, status := .closed }

def handler : Handler Client where
  role := "client"
  onStdout := onStdout
  onConnect := onConnect
  onDisconnect := onDisconnect
  onClosed := onClosed
  note entry s := { s with toRoom := s.toRoom.note entry }

/-- Queues a record for the server. -/
def sendHome (s : Client) (record : Record) : Except ChatError Unit × Client :=
  match s.toRoom.send s.home record with
  | (true, room) => (.ok (), { s with toRoom := room })
  | (false, room) => (.error .notConnected, { s with toRoom := room })

/-- Presents this client to the server. Whether it is admitted shows later in its status. -/
def authenticate (s : Client) (user : Identity) : Except ChatError Unit × Client :=
  if user.name = "" then (.error .invalidName, s)
  else
    match s.connection? s.home with
    | none => (.error .notConnected, s)
    | some c =>
      if c.stage ≠ .connected then (.error (.refused .alreadyValidated), s)
      else
        sendHome { s with toRoom := s.toRoom.update s.home (·.present user) } (.userInfo user)

/-- Says something to all other members. -/
def say (s : Client) (text : String) : Except ChatError Unit × Client :=
  match s.connection? s.home with
  | none => (.error .notConnected, s)
  | some c =>
    if c.isValidated then sendHome s (.chat text)
    else (.error (.refused (.notValidated .message)), s)

/-- Lets go of the connection to the server; `false` if it was gone. What is queued is still
sent. -/
def hangUp (s : Client) : Bool × Client :=
  match s.roster.disconnect s.mail s.home with
  | none => (false, s)
  | some (_, roster, mail) => (true, { s with roster, mail })

/-- Whether the server has admitted this client; `none` while it has not decided. -/
def admitted? (s : Client) : Option (Except ChatError Unit) :=
  match s.status with
  | .pending => none
  | .ready => some (.ok ())
  | .closed => some (.error .connectionLost)

end Client

end ChatRoom
