import ChatRoom.Wire.Record

/-!
# Outboxes

Whatever is to be sent to a peer goes into its outbox, and what writes to the peer takes it from
there. The two ends are let go one by one. When the sending end is gone, what is queued can still be
taken, and after it the outbox has `ended`. When the receiving end is gone nothing can be queued any
more. An outbox also carries the signal that tells whoever reads from the peer to stop.

An outbox keeps all that was ever queued, so its history is at hand; `pending` is what has not been
taken. All outboxes stand in one `Mail`, and a connection holds the number of its own. The mail also
knows in which order its outboxes have become due, which is the order in which they are emptied.
-/

namespace ChatRoom

structure Outbox where
  /-- Everything ever queued, oldest first. -/
  records : List Record := []
  /-- How many of them have been taken. -/
  taken : Nat := 0
  /-- Whether the sending end is still held. -/
  sending : Bool := true
  /-- Whether the receiving end is still held. -/
  receiving : Bool := true
  /-- Whether the reader has been told to stop. -/
  stopped : Bool := false
  deriving DecidableEq, Repr

namespace Outbox

/-- What is queued and not yet taken. -/
def pending (o : Outbox) : List Record := o.records.drop o.taken

/-- Takes all that is queued. -/
def drain (o : Outbox) : Outbox := { o with taken := o.records.length }

/-- Takes notice of the signal to stop. -/
def heed (o : Outbox) : Outbox := { o with stopped := false }

/-- No more records will come. -/
def ended (o : Outbox) : Bool := !o.sending

end Outbox

structure Mail where
  boxes : List Outbox := []
  /-- The outboxes that have been added to or let go since anyone last asked, by number, the one
  that was first in front. -/
  due : List Nat := []
  deriving DecidableEq, Repr

namespace Mail

/-- A new outbox, and its number. -/
def add (mail : Mail) : Nat × Mail :=
  (mail.boxes.length, { mail with boxes := mail.boxes ++ [{}] })

/-- The outbox with this number; one that was never added has ended. -/
def box (mail : Mail) (number : Nat) : Outbox :=
  (mail.boxes[number]?).getD { sending := false, receiving := false }

/-- Changes one outbox. -/
def modify (mail : Mail) (number : Nat) (f : Outbox → Outbox) : Mail :=
  { mail with boxes := mail.boxes.modify number f }

/-- Takes down that something is due in an outbox. -/
def mark (mail : Mail) (number : Nat) : Mail :=
  if number ∈ mail.due then mail else { mail with due := mail.due ++ [number] }

/-- Queues a record, if the receiving end is held. -/
def post (mail : Mail) (number : Nat) (record : Record) : Bool × Mail :=
  if (mail.box number).receiving then
    (true, (mail.modify number fun o => { o with records := o.records ++ [record] }).mark number)
  else (false, mail)

/-- Lets the sending end go. -/
def release (mail : Mail) (number : Nat) : Mail :=
  (mail.modify number fun o => { o with sending := false }).mark number

/-- Lets the receiving end go. -/
def refuse (mail : Mail) (number : Nat) : Mail :=
  mail.modify number fun o => { o with receiving := false }

/-- Tells the reader to stop. -/
def stop (mail : Mail) (number : Nat) : Mail :=
  mail.modify number fun o => { o with stopped := true }

/-- All outboxes by number, those that are due before the others and in their own order. Nothing is
due any more after this. -/
def takeTurns (mail : Mail) : List Nat × Mail :=
  (mail.due ++ (List.range mail.boxes.length).filter (· ∉ mail.due), { mail with due := [] })

end Mail

end ChatRoom
