import ChatRoom.Session.Handler
import ChatRoom.Session.Room

/-!
# The server

The server admits clients, passes on what they say, and tells everyone who comes and goes. Each
operation runs from start to end on one state, so that between a check of a name and the admission
under it nothing else can happen: of several clients that ask for a free name the first one asked
for gets it.

A client asks to be admitted once. The checks come in a fixed order, and the first that fails
decides what it is told: the name is empty, the version is not the server's, the name is taken. A
refused connection stays pending, marked for removal, until it is taken down; it holds no name.

Taking a connection down comes before announcing that it is gone, so the announcement reaches only
those that are left.
-/

namespace ChatRoom

structure Server extends Room where
  /-- The version that clients must have. -/
  version : Version := .current
  deriving DecidableEq, Repr

namespace Room

/-- Takes a connection down and tells whoever is left, if it was a member. -/
def teardown (room : Room) (h : Handle) : Room :=
  match room.roster.disconnect room.mail h with
  | none => room
  | some (departure, roster, mail) =>
    let room := { room with roster, mail }
    let peer := peerLabel departure.address
    match departure.user, departure.wasValidated with
    | some user, true => (room.note (.left user.name peer)).broadcast none (.leaving user.name)
    | _, _ => room.note (if departure.rejected then .cleared peer else .neverJoined peer)

/-- Tells a pending client why it is not admitted, and marks it for removal. -/
def deny (room : Room) (origin : Handle) (denial : Denial) : Room :=
  (room.send origin (.stdout denial.notice)).2.update origin .reject

/-- Tells two members of each other. -/
def introduce (newcomer : Connection) (user : Identity) :
    List (Handle × Connection) → Mail → Mail
  | [], mail => mail
  | (_, other) :: rest, mail =>
    match other.user with
    | none => introduce newcomer user rest mail
    | some known =>
      let (_, mail) := newcomer.send mail (.connect known false)
      let (_, mail) := other.send mail (.connect user false)
      introduce newcomer user rest mail

/-- Makes a pending client a member: the others read that it has come, it is told that it is in, and
then each of the others and it are told of each other. -/
def welcome (room : Room) (origin : Handle) (user : Identity) (peer : String) : Room :=
  let room := room.broadcast (some origin)
    (.stdout ("Client " ++ LogEntry.quoted user.name ++ " has connected\n"))
  let room := room.update origin .validate
  let (_, room) := room.send origin (.connect user true)
  let room := room.note (.joined user.name peer)
  match room.connection? origin with
  | none => room
  | some newcomer =>
    { room with mail := introduce newcomer user (room.roster.members (some origin)) room.mail }

end Room

namespace Server

/-- Links a peer that has just connected. Nobody sees it before it is admitted. -/
def register (s : Server) (address : Option SocketAddress) : Handle × Server :=
  let (h, room) := s.toRoom.join address
  (h, { s with toRoom := room })

/-- The first check that fails. -/
def denial? (s : Server) (origin : Handle) (user : Identity) : Option Denial :=
  if user.name = "" then some .emptyName
  else if user.version ≠ s.version then some (.wrongVersion user.version s.version)
  else if (s.roster.findMember user.name (some origin)).isSome then some .nameTaken
  else none

/-- A client presents itself. -/
def onUserInfo (origin : Handle) (user : Identity) (s : Server) : Answer Server :=
  match s.connection? origin with
  | none => (.ok .close, s)
  | some c =>
    if c.stage ≠ .connected then (.error .alreadyValidated, s)
    else
      let room := s.toRoom.update origin (·.present user)
      match denial? { s with toRoom := room } origin user with
      | some denial =>
        let room := room.note (.denied user.name c.label denial)
        (.ok .close, { s with toRoom := room.deny origin denial })
      | none => (.ok .proceed, { s with toRoom := room.welcome origin user c.label })

/-- Runs a request that only members may make. A request of a connection that is gone was under way
when it was taken down. -/
def asMember (origin : Handle) (kind : Kind) (s : Server) (request : Connection → Room) :
    Answer Server :=
  match s.connection? origin with
  | none => (.ok .close, s)
  | some c =>
    if c.isValidated then (.ok .proceed, { s with toRoom := request c })
    else (.error (.notValidated kind), s)

/-- A member says something to all the others. -/
def onMessage (origin : Handle) (text : String) (s : Server) : Answer Server :=
  asMember origin .message s fun c =>
    let line := c.name?.getD "" ++ ": " ++ text ++ "\n"
    (s.toRoom.write line).broadcast (some origin) (.stdout line)

/-- A member has another one removed. -/
def onDisconnect (origin : Handle) (name : String) (s : Server) : Answer Server :=
  asMember origin .disconnect s fun c =>
    let requester := c.name?.getD ""
    match s.roster.findMember name (some origin) with
    | some target => (s.toRoom.note (.removed requester name)).teardown target
    | none => s.toRoom.note (.removeUnknown requester name)

def onClosed (origin : Handle) (s : Server) : Server :=
  { s with toRoom := s.toRoom.teardown origin }

def handler : Handler Server where
  role := "server"
  onUserInfo := onUserInfo
  onMessage := onMessage
  onDisconnect := onDisconnect
  onClosed := onClosed
  note entry s := { s with toRoom := s.toRoom.note entry }

/-- Removes the member with this name; `false` if there is none. -/
def kick (s : Server) (name : String) : Bool × Server :=
  match s.roster.findMember name none with
  | some target => (true, { s with toRoom := (s.toRoom.note (.kicking name)).teardown target })
  | none => (false, s)

/-- Takes down every connection without a word to anyone, and counts them. -/
def disconnectAll (s : Server) : Nat × Server :=
  let (count, room) := s.toRoom.disconnectAll
  (count, { s with toRoom := room })

/-- The stage of a connection that is still there. -/
def stage? (s : Server) (h : Handle) : Option Stage := (s.connection? h).map (·.stage)

end Server

end ChatRoom
