import ChatRoom.Roster.Basic
import ChatRoom.Session.Log
import ChatRoom.Session.Transcript

/-!
# Rooms

What both sides of a conversation hold: who is there, what is queued for them, what was shown on the
console, and what was reported.
-/

namespace ChatRoom

structure Room where
  roster : Roster := {}
  mail : Mail := {}
  console : Transcript := []
  log : List LogEntry := []
  deriving DecidableEq, Repr

namespace Room

def note (room : Room) (entry : LogEntry) : Room := { room with log := room.log ++ [entry] }

def write (room : Room) (text : String) : Room := { room with console := room.console.write text }

def connection? (room : Room) (h : Handle) : Option Connection := room.roster.get? h

def update (room : Room) (h : Handle) (f : Connection → Connection) : Room :=
  { room with roster := room.roster.modify h f }

/-- Links a peer that has just connected, with an outbox of its own. -/
def join (room : Room) (address : Option SocketAddress) : Handle × Room :=
  let (outbox, mail) := room.mail.add
  let (h, roster) := room.roster.link (.remote address outbox)
  (h, { room with roster, mail })

/-- Queues a record for a connection; `false` if nothing can reach it. -/
def send (room : Room) (h : Handle) (record : Record) : Bool × Room :=
  match room.connection? h with
  | none => (false, room)
  | some c =>
    let (sent, mail) := c.send room.mail record
    (sent, { room with mail })

/-- Queues a record for every member but one. -/
def broadcast (room : Room) (except : Option Handle) (record : Record) : Room :=
  { room with mail := (room.roster.broadcast room.mail except record).2 }

/-- Takes down every connection without a word to anyone, and counts them. -/
def disconnectAll (room : Room) : Nat × Room :=
  let (count, roster, mail) := room.roster.disconnectAll room.mail
  (count, { room with roster, mail })

def memberNames (room : Room) : List String := room.roster.memberNames

end Room

end ChatRoom
