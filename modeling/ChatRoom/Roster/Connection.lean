import ChatRoom.Net.Address
import ChatRoom.Roster.Outbox

/-!
# Connections

A connection goes through stages:

    connected ──credentials──> pendingValidation ──checks pass──> validated
        │                             │                               │
        └─────────────────────────────┴──────────── close ──────────> closed

It has a user from the moment it presents one. One that is refused is marked for removal and waits,
still pending, until it is taken down. A client also keeps connections that are only names: those
have no outbox, and nothing can be sent to them.
-/

namespace ChatRoom

inductive Stage where
  /-- Open, and no credentials yet. -/
  | connected
  /-- Credentials are being checked, or have been refused. -/
  | pendingValidation
  /-- A member. -/
  | validated
  | closed
  deriving DecidableEq, Repr

def Stage.name : Stage → String
  | connected => "Connected"
  | pendingValidation => "PendingValidation"
  | validated => "Validated"
  | closed => "Closed"

structure Connection where
  stage : Stage
  user : Option Identity
  /-- Marked for removal. -/
  rejected : Bool
  address : Option SocketAddress
  /-- The number of its outbox. -/
  outbox : Option Nat
  deriving DecidableEq, Repr

/-- What is left of a connection that has been taken down, for logs and announcements. -/
structure Departure where
  user : Option Identity
  wasValidated : Bool
  rejected : Bool
  address : Option SocketAddress
  deriving DecidableEq, Repr

/-- How logs name a peer: by its IP address. -/
def peerLabel : Option SocketAddress → String
  | some address => address.ip.text
  | none => "local"

namespace Connection

/-- A peer that has just connected. -/
def remote (address : Option SocketAddress) (outbox : Nat) : Connection :=
  ⟨.connected, none, false, address, some outbox⟩

/-- A member that is known by name only. -/
def named (user : Identity) : Connection :=
  ⟨.validated, some user, false, none, none⟩

def isValidated (c : Connection) : Bool := c.stage == .validated

def name? (c : Connection) : Option String := c.user.map (·.name)

def label (c : Connection) : String := peerLabel c.address

def present (c : Connection) (user : Identity) : Connection :=
  { c with user := some user, stage := .pendingValidation }

def validate (c : Connection) : Connection := { c with stage := .validated }

def reject (c : Connection) : Connection := { c with rejected := true }

/-- Queues a record for the peer; `false` if nothing can reach it. -/
def send (c : Connection) (mail : Mail) (record : Record) : Bool × Mail :=
  match c.outbox with
  | some number => mail.post number record
  | none => (false, mail)

/-- Lets the outbox go, so that it ends behind what is queued, and stops the peer's reader. -/
def close (c : Connection) (mail : Mail) : Connection × Mail :=
  ({ c with stage := .closed, user := none, outbox := none },
    match c.outbox with
    | some number => (mail.release number).stop number
    | none => mail)

/-- Lets the outbox go, and leaves the peer's reader alone. -/
def abandon (c : Connection) (mail : Mail) : Mail :=
  match c.outbox with
  | some number => mail.release number
  | none => mail

def departure (c : Connection) : Departure :=
  ⟨c.user, c.isValidated, c.rejected, c.address⟩

end Connection

end ChatRoom
