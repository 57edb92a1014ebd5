import ChatRoom.Session.Deliver
import ChatRoom.Session.Receive
import ChatRoom.Session.Server

/-!
# The hub

A hub is a server at work: each peer has a line, on which its bytes are read and its records are
written. Reading hands records to the server; writing empties the peer's outbox. The two know of
each other only through the outbox. When reading ends, the peer is taken down, which ends its
outbox, and so its writing ends behind what was queued. When a record cannot be written, the reader
is told to stop, and the peer is taken down as well.

An event happens at one peer or at the server, and then the hub settles: in each round every line is
read in turn, and then every line is written in turn. Lines are written in the order in which their
outboxes have become due, and are read in the order of the last writing, so whoever has waited
longest comes first. A round is followed by another one only if a failed write has told a reader to
stop. That reader ends in the next round, so the rounds are never more than one and the number of
peers.

Rounds are one schedule. Every line is read by one task and written by another, which take turns as
they are woken, and only some things about their order are settled: a line's own records stay in
their order, and nothing is written before it is queued. A hub reads every line before it writes
any, reads as far as a line goes at once, and looks at a signal to stop when there is nothing left
to read. Between two lines, and between a signal and what is there to be read, it could have been
otherwise. What a run says about the order in which lines end, and about who has read what when
another one leaves, is said of this schedule. What a peer gets of its outbox, and that its reading
ends with its connection, does not hang on it (`Hub.stands_in_any_order`).
-/

namespace ChatRoom

/-- What the server keeps for one peer. The peer's outbox has the peer's number. -/
structure Peer where
  handle : Handle
  /-- How logs name the line when it cannot be written to. -/
  label : String
  reader : Reader
  /-- Whether the peer may still send. -/
  sending : Bool := true
  /-- Why nothing more is read from the peer, once nothing is. -/
  ending : Option Ending := none
  target : Target := {}
  /-- Whether records are still written to the peer. -/
  writing : Bool := true

structure Hub where
  server : Server
  peers : List Peer := []

namespace Hub

/-- Reads a peer's line as far as it goes, and takes the peer down if that was the end. -/
def read (hub : Hub) (p : Nat) : Hub :=
  match hub.peers[p]? with
  | none => hub
  | some peer =>
    if peer.ending.isSome then hub
    else
      let stopped := (hub.server.mail.box p).stopped
      let (ending, reader, server) :=
        Server.handler.serve peer.handle stopped peer.reader hub.server
      { server := if ending.isSome then Server.handler.onClosed peer.handle server else server
        peers := hub.peers.set p { peer with reader, ending } }

/-- What becomes of an outbox after its records have been taken for writing. -/
def collect (mail : Mail) (p : Nat) (delivery : Delivery) : Mail :=
  let drained := mail.modify p (·.drain)
  match delivery with
  | .written | .finished => drained
  | .failed => (drained.refuse p).stop p

/-- Writes to a peer's line what is queued for it. -/
def write (hub : Hub) (p : Nat) : Hub :=
  match hub.peers[p]? with
  | none => hub
  | some peer =>
    if peer.writing then
      let outbox := hub.server.mail.box p
      let (delivery, log, target) := deliver peer.label outbox.pending outbox.ended peer.target
      let server := { hub.server with
        mail := collect hub.server.mail p delivery, log := hub.server.log ++ log }
      { server, peers := hub.peers.set p { peer with target, writing := delivery == .written } }
    else hub

/-- Reads the lines in the given order, and then writes them. Answers the order of the writing.
Tasks that serve the lines one by one may also take turns between reading and writing: this is one
of their schedules, and `Hub.acts` is any of them. -/
def round (hub : Hub) (order : List Nat) : List Nat × Hub :=
  let hub := order.foldl read hub
  let (order, mail) := hub.server.mail.takeTurns
  (order, order.foldl write { hub with server := { hub.server with mail } })

/-- Whether a peer's reader has been told to stop and has not done so. -/
def mustStop (hub : Hub) : Bool :=
  hub.peers.zipIdx.any fun (peer, p) =>
    peer.ending.isNone && (hub.server.mail.box p).stopped

/-- One round, and more while a reader must stop. -/
def rounds : (more : Nat) → List Nat → Hub → Hub
  | 0, order, hub => (hub.round order).2
  | more + 1, order, hub =>
    let (order, hub) := hub.round order
    if hub.mustStop then rounds more order hub else hub

/-- Lets everything happen that can happen before the next event. -/
def settle (hub : Hub) : Hub :=
  rounds hub.peers.length (List.range hub.peers.length) hub

/-- Changes one peer. -/
def modifyPeer (hub : Hub) (p : Nat) (f : Peer → Peer) : Hub :=
  { hub with peers := hub.peers.modify p f }

/-- A new peer connects, under the next number. -/
def connect (hub : Hub) (address : Option SocketAddress) (label : String) : Handle × Hub :=
  let (handle, server) := hub.server.register address
  let reader : Reader := { source := { rest := [], waits := true } }
  (handle, { server, peers := hub.peers ++ [{ handle, label, reader }] })

/-- A peer sends bytes. Answers whether the line took them, which it does while it is read, and
nothing at all if the peer had already said that it would send no more. No bytes are always
taken. -/
def send (hub : Hub) (p : Nat) (bytes : Bytes) : Option Bool × Hub :=
  match hub.peers[p]? with
  | none => (none, hub)
  | some peer =>
    if !peer.sending then (none, hub)
    else if peer.ending.isSome then (some (bytes == []), hub)
    else (some true, hub.modifyPeer p fun peer =>
      let source := peer.reader.source
      { peer with reader.source := { source with rest := source.rest ++ bytes } })

/-- A peer says that it will send no more. -/
def finish (hub : Hub) (p : Nat) : Hub :=
  hub.modifyPeer p fun peer => { peer with sending := false, reader.source.waits := false }

/-- A peer takes nothing more. What has been written to it stays written, and the next write to it
fails. -/
def deafen (hub : Hub) (p : Nat) : Hub :=
  hub.modifyPeer p fun peer =>
    { peer with target.full := some (peer.target.taken.length, "broken pipe") }

/-- What happens at a hub. -/
inductive Event where
  | connect (address : Option SocketAddress) (label : String)
  | send (p : Nat) (bytes : Bytes)
  | finish (p : Nat)
  | deafen (p : Nat)
  /-- A peer is gone altogether. -/
  | vanish (p : Nat)
  | kick (name : String)
  | disconnectAll
  deriving DecidableEq, Repr

/-- What the one who causes an event learns of it at once. -/
inductive Reply where
  | none
  | connected (handle : Handle)
  | sent (taken : Option Bool)
  | kicked (found : Bool)
  | disconnected (count : Nat)
  deriving DecidableEq, Repr

/-- An event before anything follows from it. -/
def apply (hub : Hub) : Event → Reply × Hub
  | .connect address label =>
    let (handle, hub) := hub.connect address label
    (.connected handle, hub)
  | .send p bytes =>
    let (taken, hub) := hub.send p bytes
    (.sent taken, hub)
  | .finish p => (.none, hub.finish p)
  | .deafen p => (.none, hub.deafen p)
  | .vanish p => (.none, (hub.finish p).deafen p)
  | .kick name =>
    let (found, server) := hub.server.kick name
    (.kicked found, { hub with server })
  | .disconnectAll =>
    let (count, server) := hub.server.disconnectAll
    (.disconnected count, { hub with server })

/-- An event and all that follows from it. -/
def step (hub : Hub) (event : Event) : Reply × Hub :=
  let (reply, hub) := hub.apply event
  (reply, hub.settle)

/-- All that follows from a list of events. -/
def run (hub : Hub) (events : List Event) : Hub :=
  events.foldl (fun hub event => (hub.step event).2) hub

end Hub

end ChatRoom
