import ChatRoom.Session.Client
import ChatRoom.Session.Deliver
import ChatRoom.Session.Network
import ChatRoom.Session.Receive

/-!
# Terminals

A terminal is a client at work: it reads what the server sends, and writes what the client has for
the server. What it reads never gives it anything to write. Only its user does, and whatever is
queued is written at once.

When reading ends the client is closed. If the client has not hung up itself, its user is told why,
and a stream that ends cleanly is then a lost connection.
-/

namespace ChatRoom

/-- What a client's user is told when reading ends unasked. -/
def Ending.complaint? : Ending → Option ChatError
  | endOfStream | stopped => some .connectionLost
  | failed error => some error
  | closed => none

structure Terminal where
  client : Client
  /-- How logs name the server's end of the line. -/
  label : String
  reader : Reader := { source := { rest := [], waits := true } }
  ending : Option Ending := none
  target : Target := {}
  writing : Bool := true
  /-- What was handed to the error policy. Its answers are not asked for: the connection is over in
  any case. -/
  reports : List (ChatError × Severity) := []

namespace Terminal

/-- A terminal at a line to a server. -/
def start (address : SocketAddress) : Terminal where
  client := Client.start (some address)
  label := address.text

/-- Reaches a server, if it can be reached. -/
def connect (net : Network) (config : ClientConfig) : Except ChatError Terminal :=
  (net.reach config).map start

/-- Reads as far as it goes, and closes the client if that was the end. -/
def read (t : Terminal) : Terminal :=
  if t.ending.isSome then t
  else
    let home := t.client.home
    match Client.handler.serve home t.client.outbox.stopped t.reader t.client with
    | (none, reader, client) => { t with reader, client }
    | (some ending, reader, client) =>
      let hungUp := (client.connection? home).isNone
      let complaints := if hungUp then [] else ending.complaint?.toList
      { t with
        reader, ending := some ending, client := Client.handler.onClosed home client
        reports := t.reports ++ complaints.map fun error => (error, .fatal) }

/-- Writes what is queued for the server. -/
def write (t : Terminal) : Terminal :=
  if t.writing then
    let outbox := t.client.outbox
    let (delivery, log, target) := deliver t.label outbox.pending outbox.ended t.target
    let drained := t.client.mail.modify 0 (·.drain)
    let mail := if delivery = .failed then (drained.refuse 0).stop 0 else drained
    let client := { t.client with mail, log := t.client.log ++ log }
    { t with client, target, writing := delivery == .written }
  else t

/-- Lets everything happen that can happen. The second reading is for a failed write, which tells
the reader to stop. -/
def settle (t : Terminal) : Terminal := t.read.write.read

/-- The user asks something of the client. -/
def ask {α : Type} (t : Terminal) (request : Client → α × Client) : α × Terminal :=
  let (answer, client) := request t.client
  (answer, { t with client }.settle)

/-- Bytes come from the server. -/
def hear (t : Terminal) (bytes : Bytes) : Terminal :=
  let source := t.reader.source
  { t with reader.source := { source with rest := source.rest ++ bytes } }.settle

/-- The server will send no more. -/
def hearEnd (t : Terminal) : Terminal :=
  { t with reader.source.waits := false }.settle

/-- Whether nothing comes from the server any more. -/
def isClosed (t : Terminal) : Bool := t.client.status == .closed

end Terminal

end ChatRoom
