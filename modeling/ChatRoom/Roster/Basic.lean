import ChatRoom.Roster.Arena
import ChatRoom.Roster.Connection

/-!
# The roster

The connections of one side, in the order in which they were linked. Only validated ones are
members: they alone are seen by broadcasts, by searches and in lists of names. The walk over members
may leave one handle out, most often the connection that a record came from.
-/

namespace ChatRoom

abbrev Roster := Arena Connection

namespace Roster

/-- The validated connections but for one. -/
def members (r : Roster) (except : Option Handle) : List (Handle × Connection) :=
  r.toList.filter fun (h, c) => some h != except && c.isValidated

/-- The first member with this name. -/
def findMember (r : Roster) (name : String) (except : Option Handle) : Option Handle :=
  ((r.members except).find? fun (_, c) => c.name? == some name).map (·.1)

/-- The members' names. -/
def memberNames (r : Roster) : List String :=
  (r.members none).filterMap fun (_, c) => c.name?

/-- The members that satisfy a condition. -/
def membersWhere (r : Roster) (except : Option Handle) (p : Connection → Bool) :
    List (Handle × Connection) :=
  (r.members except).filter fun (_, c) => p c

/-- Queues a record for each of some connections, and counts those that took it. -/
def sendAll (record : Record) : List (Handle × Connection) → Mail → Nat × Mail
  | [], mail => (0, mail)
  | (_, c) :: rest, mail =>
    let (sent, mail) := c.send mail record
    let (count, mail) := sendAll record rest mail
    (if sent then count + 1 else count, mail)

/-- Queues a record for every member but one, and counts those that took it. -/
def broadcast (r : Roster) (mail : Mail) (except : Option Handle) (record : Record) : Nat × Mail :=
  sendAll record (r.members except) mail

/-- Takes a connection out and closes it in one step. -/
def disconnect (r : Roster) (mail : Mail) (h : Handle) : Option (Departure × Roster × Mail) :=
  (r.unlink h).map fun (c, r) => (c.departure, r, (c.close mail).2)

/-- Takes out and closes connections one after the other, and counts those that were there. -/
def disconnectEach : List Handle → Roster → Mail → Nat × Roster × Mail
  | [], r, mail => (0, r, mail)
  | h :: rest, r, mail =>
    match disconnect r mail h with
    | none => disconnectEach rest r mail
    | some (_, r, mail) =>
      let (count, r, mail) := disconnectEach rest r mail
      (count + 1, r, mail)

/-- Takes out and closes every connection. Nobody is told. -/
def disconnectAll (r : Roster) (mail : Mail) : Nat × Roster × Mail :=
  disconnectEach (r.toList.map (·.1)) r mail

end Roster

end ChatRoom
